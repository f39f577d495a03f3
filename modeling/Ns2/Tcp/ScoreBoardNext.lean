import Ns2.Tcp.ScoreBoardCounts

/-! The next packet to be retransmitted: a pass points to the first lost node, unless it stops
before the nodes behind all blocks and has met no lost one by then. -/

namespace Ns2.ScoreBoard1

open ScoreBoardNode1

variable {b b' : ScoreBoard1} {p p' : Pass} {now now' : ScoreBoardNode1}
  {done rest rest' l : List ScoreBoardNode1} {lo mid hi dupack last_ack : ℤ}

/-- A packet lies in a block. -/
def Covered (sacks : List (ℤ × ℤ)) (i : ℤ) : Prop := ∃ s ∈ sacks, s.1 ≤ i ∧ i < s.2

/-- A packet of a node is lost, or becomes lost in a pass that does not cover it. -/
def Losing (b : ScoreBoard1) (dupack : ℤ) (n : ScoreBoardNode1) (i : ℤ) : Prop :=
  match n.flag_ with
  | .lost => True
  | .retransmitted => n.nxt_ ≤ b.fack_ ∨ n.retran_ + dupack + 1 < b.acked_rtx_id_
  | .inflight => i ≤ b.fack_ - (dupack + 1)
  | .sacked => False

/-- A node that is not sacked reaches as far as all blocks. -/
def PassedBy (sacks : List (ℤ × ℤ)) (n : ScoreBoardNode1) : Prop :=
  n.flag_ ≠ .sacked ∧ ∀ s ∈ sacks, s.2 ≤ n.getEnd

/-- Where a pass may stop before a lost node, it has met another one. -/
def Meets (b : ScoreBoard1) (dupack : ℤ) (sacks : List (ℤ × ℤ)) (nodes : List ScoreBoardNode1) :
    Prop :=
  ∀ m ∈ nodes, ∀ n ∈ nodes, PassedBy sacks m → n.flag_ = .lost → m.getEnd < n.seq_ →
    ∃ k ∈ nodes, ∃ i ∈ Finset.Icc k.seq_ (min k.getEnd m.getEnd),
      ¬ Covered sacks i ∧ Losing b dupack k i

/-! ### The first lost node -/

/-- The pointer is to a node with no lost node before it; there is none if the pointer is null. -/
def FirstLost (nxt : Option ℕ) (l : List ScoreBoardNode1) : Prop :=
  match nxt with
  | none => ∀ n ∈ l, n.flag_ ≠ .lost
  | some a => ∃ front n back, l = front ++ n :: back ∧ n.addr = a ∧ ∀ m ∈ front, m.flag_ ≠ .lost

theorem FirstLost.append {a : ℕ} (h : FirstLost (some a) l) (m : List ScoreBoardNode1) :
    FirstLost (some a) (l ++ m) := by
  obtain ⟨front, n, back, rfl, ha, hf⟩ := h
  exact ⟨front, n, back ++ m, by simp, ha, hf⟩

/-- A node follows that may be the first lost one. -/
theorem FirstLost.offer {nxt : Option ℕ} (h : FirstLost nxt l) (n : ScoreBoardNode1) :
    FirstLost (if n.flag_ = .lost then nxt.or (some n.addr) else nxt) (l ++ [n]) := by
  cases nxt with
  | some a =>
    have : FirstLost (some a) (l ++ [n]) := h.append [n]
    split_ifs <;> simpa
  | none =>
    split_ifs with hn
    · exact ⟨l, n, [], rfl, rfl, h⟩
    · intro m hm
      rcases List.mem_append.mp hm with hm | hm
      · exact h m hm
      · obtain rfl := List.mem_singleton.mp hm
        exact hn

theorem notLost_congr {l' : List ScoreBoardNode1} (h : ∀ n ∈ l, n.flag_ ≠ .lost)
    (he : l'.map (fun n => (n.addr, n.flag_)) = l.map fun n => (n.addr, n.flag_)) :
    ∀ n ∈ l', n.flag_ ≠ .lost := by
  intro n hn
  have hmem := List.mem_map_of_mem (f := fun n : ScoreBoardNode1 => (n.addr, n.flag_)) hn
  rw [he] at hmem
  obtain ⟨m, hm, hmn⟩ := List.mem_map.mp hmem
  exact (Prod.mk.inj hmn).2 ▸ h m hm

/-- The edges of the nodes do not matter. -/
theorem FirstLost.congr {nxt : Option ℕ} {l' : List ScoreBoardNode1} (h : FirstLost nxt l)
    (he : l'.map (fun n => (n.addr, n.flag_)) = l.map fun n => (n.addr, n.flag_)) :
    FirstLost nxt l' := by
  cases nxt with
  | none => exact notLost_congr h he
  | some a =>
    obtain ⟨front, n, back, rfl, ha, hf⟩ := h
    rw [List.map_append, List.map_cons] at he
    obtain ⟨front', tail, rfl, hfront, htail⟩ := List.map_eq_append_iff.mp he
    obtain ⟨n', back', rfl, hn, -⟩ := List.map_eq_cons_iff.mp htail
    exact ⟨front', n', back', rfl, (Prod.mk.inj hn).1.trans ha, notLost_congr hf hfront⟩

theorem FirstLost.mergeNode {nxt : Option ℕ} (h : FirstLost nxt done.reverse)
    (now : ScoreBoardNode1) :
    FirstLost (if now.flag_ = .lost then nxt.or (some now.addr) else nxt)
      (mergeNode done now).reverse := by
  cases done with
  | nil => exact h.offer now
  | cons prev done =>
    rw [ScoreBoard1.mergeNode]
    by_cases hm : now.flag_ ≠ .retransmitted ∧ now.flag_ = prev.flag_
    · rw [if_pos hm]
      rw [List.reverse_cons] at h ⊢
      have hlast : FirstLost nxt (done.reverse ++ [{ prev with nxt_ := now.nxt_ }]) :=
        h.congr (by simp)
      split_ifs with hlost
      · -- the last node is lost, so that the pointer is not null
        cases nxt with
        | none => exact absurd (hm.2 ▸ hlost) (h prev (by simp))
        | some a => exact hlast
      · exact hlast
    · rw [if_neg hm, List.reverse_cons]
      exact h.offer now

/-! ### One node of the pass -/

theorem beyond_eq_true {sacks : List (ℤ × ℤ)} {n : ScoreBoardNode1} :
    beyond sacks n = true ↔ ∀ s, sacks.head? = some s → n.getEnd < s.1 := by
  cases sacks <;> simp [beyond]

/-- What becomes of a node that is checked for losses. -/
structure Checked (dupack : ℤ) (p : Pass) (now : ScoreBoardNode1) (rest : List ScoreBoardNode1)
    (r : Pass × ScoreBoardNode1 × List ScoreBoardNode1) : Prop where
  sacks : r.1.sacks = p.sacks
  thorough : r.1.thorough = p.thorough
  acked : r.1.board.acked_rtx_id_ = p.board.acked_rtx_id_
  kept : r.2.1.flag_ ≠ .lost → r.2.2 = rest ∧ r.2.1.getEnd = now.getEnd ∧
    ∀ i, now.seq_ ≤ i → i ≤ now.getEnd → ¬ Losing p.board dupack now i

theorem lossNode_checked (dupack : ℤ) (p : Pass) (now : ScoreBoardNode1)
    (rest : List ScoreBoardNode1) :
    Checked dupack p now rest (lossNode dupack (p.board.fack_ - (dupack + 1)) p now rest) := by
  cases hf : now.flag_ with
  | sacked =>
    have he : lossNode dupack (p.board.fack_ - (dupack + 1)) p now rest = (p, now, rest) := by
      simp only [lossNode, hf]
    rw [he]
    exact ⟨rfl, rfl, rfl, fun _ => ⟨rfl, rfl, by simp [Losing, hf]⟩⟩
  | lost =>
    simp only [lossNode, hf]
    exact ⟨rfl, rfl, rfl, fun h => absurd hf h⟩
  | retransmitted =>
    by_cases hc : now.nxt_ ≤ p.board.fack_ ∨ now.retran_ + dupack + 1 < p.board.acked_rtx_id_
    · simp only [lossNode, hf, if_pos hc]
      exact ⟨rfl, rfl, rfl, fun h => absurd rfl h⟩
    · simp only [lossNode, hf, if_neg hc]
      exact ⟨rfl, rfl, rfl, fun _ => ⟨rfl, rfl, fun i _ _ => by simpa [Losing, hf] using hc⟩⟩
  | inflight =>
    by_cases hle : now.seq_ ≤ p.board.fack_ - (dupack + 1)
    · by_cases hlt : p.board.fack_ - (dupack + 1) < now.getEnd
      · simp only [lossNode, hf, if_pos hle, if_pos hlt]
        exact ⟨rfl, rfl, rfl, fun h => absurd rfl h⟩
      · simp only [lossNode, hf, if_pos hle, if_neg hlt]
        exact ⟨rfl, rfl, rfl, fun h => absurd rfl h⟩
    · simp only [lossNode, hf, if_neg hle]
      refine ⟨rfl, rfl, rfl, fun _ => ⟨rfl, rfl, fun i hi _ => ?_⟩⟩
      simp only [Losing, hf]
      omega

/-- What becomes of a node that is not sacked, unless it is lost afterwards: what is split off keeps
the flag, and all other packets are covered or do not become lost. -/
structure Processed (dupack : ℤ) (p : Pass) (now : ScoreBoardNode1) (rest : List ScoreBoardNode1)
    (r : Pass × ScoreBoardNode1 × List ScoreBoardNode1) : Prop where
  sacks : r.1.sacks = p.sacks.dropWhile fun s => decide (s.2 ≤ now.seq_)
  thorough : p.thorough = true → r.1.thorough = true
  acked : r.1.thorough = false → r.1.board.acked_rtx_id_ = p.board.acked_rtx_id_
  rest : r.2.1.flag_ ≠ .lost → r.2.2 = rest ∧ r.2.1.getEnd = now.getEnd ∨
    ∃ piece, r.2.2 = piece :: rest ∧ piece.flag_ = now.flag_ ∧ piece.getEnd = now.getEnd ∧
      now.flag_ ≠ .retransmitted ∧ r.1.sacks ≠ []
  losing : r.2.1.flag_ ≠ .lost → ∀ i, now.seq_ ≤ i → i ≤ r.2.1.getEnd → ¬ Covered p.sacks i →
    ¬ Losing p.board dupack now i
  retran : now.flag_ = .retransmitted → p.sacks.Pairwise (fun s t => s.1 ≤ t.1) →
    Covered p.sacks now.seq_ → r.1.thorough = true

theorem covered_dropWhile {sacks : List (ℤ × ℤ)} {k i : ℤ} (hi : k ≤ i) :
    Covered (sacks.dropWhile fun s => decide (s.2 ≤ k)) i ↔ Covered sacks i := by
  constructor
  · rintro ⟨s, hs, h⟩
    exact ⟨s, (List.dropWhile_sublist _).subset hs, h⟩
  · rintro ⟨s, hs, h1, h2⟩
    refine ⟨s, ?_, h1, h2⟩
    rw [← List.takeWhile_append_dropWhile (p := fun s : ℤ × ℤ => decide (s.2 ≤ k))
      (l := sacks)] at hs
    refine (List.mem_append.mp hs).resolve_left fun htake => ?_
    have := List.mem_takeWhile_imp htake
    simp only [decide_eq_true_eq] at this
    omega

/-- What becomes of a node that begins inside of a block. -/
structure Labelled (p : Pass) (now : ScoreBoardNode1) (rest : List ScoreBoardNode1) (right : ℤ)
    (r : Pass × ScoreBoardNode1 × List ScoreBoardNode1) : Prop where
  sacks : r.1.sacks = p.sacks
  flag : r.2.1.flag_ = .sacked
  thorough : r.1.thorough = (p.thorough || decide (now.flag_ = .retransmitted))
  acked : now.flag_ ≠ .retransmitted → r.1.board.acked_rtx_id_ = p.board.acked_rtx_id_
  last : r.2.1.getEnd = min now.getEnd (right - 1)
  rest : r.2.2 = rest ∧ r.2.1.getEnd = now.getEnd ∨ ∃ piece, r.2.2 = piece :: rest ∧
    piece.flag_ = now.flag_ ∧ piece.getEnd = now.getEnd ∧ now.flag_ ≠ .retransmitted

theorem label_labelled {right : ℤ} (hlt : now.seq_ < right) (p : Pass)
    (rest : List ScoreBoardNode1) : Labelled p now rest right (label p now rest right) := by
  by_cases hle : right ≤ now.getEnd
  · obtain ⟨hr, -⟩ := retransmitted_end hlt hle
    have hflag : (label p now rest right).1.thorough = p.thorough ∧
        (label p now rest right).1.board.acked_rtx_id_ = p.board.acked_rtx_id_ := by
      simp only [label, if_pos hle]
      cases hf : now.flag_ with
      | retransmitted => exact absurd hf hr
      | sacked => simp [split, hf]
      | lost => simp [split, hf]
      | inflight => simp [split, hf]
    refine ⟨?_, rfl, by simpa [hr] using hflag.1, fun _ => hflag.2, ?_, .inr ?_⟩
    · simp only [label]
      split <;> rfl
    · rw [min_eq_right (by omega)]
      simp only [label, if_pos hle]
      simp [split, setFlag, getEnd, hr]
    · simp only [label, if_pos hle]
      exact ⟨_, rfl, rfl, by simp [split, getEnd, hr], hr⟩
  · have hflag : (label p now rest right).1.thorough =
          (p.thorough || decide (now.flag_ = .retransmitted)) ∧
        (now.flag_ ≠ .retransmitted →
          (label p now rest right).1.board.acked_rtx_id_ = p.board.acked_rtx_id_) := by
      simp only [label, if_neg hle]
      cases hf : now.flag_ <;> simp
    have hend : (label p now rest right).2.1.getEnd = now.getEnd := by
      simp only [label, if_neg hle]
      exact setFlag_end now (by decide)
    refine ⟨?_, rfl, hflag.1, hflag.2, by rw [hend, min_eq_left (by omega)], .inl ⟨?_, hend⟩⟩
    · simp only [label]
      split <;> rfl
    · simp only [label, if_neg hle]

theorem processNode_processed (dupack : ℤ) (p : Pass) (hf : now.flag_ ≠ .sacked)
    (rest : List ScoreBoardNode1) : Processed dupack p now rest
      (processNode dupack (p.board.fack_ - (dupack + 1)) p now rest) := by
  obtain ⟨q, hq⟩ : ∃ q : Pass, q = { p with
      sacks := p.sacks.dropWhile fun s => decide (s.2 ≤ now.seq_) } := ⟨_, rfl⟩
  have hsacks : q.sacks = p.sacks.dropWhile fun s => decide (s.2 ≤ now.seq_) := by rw [hq]
  have hboard : q.board = p.board := by rw [hq]
  have hthorough : q.thorough = p.thorough := by rw [hq]
  have hcov : ∀ i, now.seq_ ≤ i → (Covered q.sacks i ↔ Covered p.sacks i) := fun i hi => by
    rw [hsacks]
    exact covered_dropWhile hi
  -- a node that no block reaches is checked for losses
  have hcheck : ∀ now₁ rest₁ b, now₁.seq_ = now.seq_ →
      b.fack_ = p.board.fack_ → b.acked_rtx_id_ = p.board.acked_rtx_id_ →
      (∀ i, Losing b dupack now₁ i ↔ Losing p.board dupack now i) →
      (rest₁ = rest ∧ now₁.getEnd = now.getEnd ∨ ∃ piece, rest₁ = piece :: rest ∧
        piece.flag_ = now.flag_ ∧ piece.getEnd = now.getEnd ∧ now.flag_ ≠ .retransmitted ∧
        q.sacks ≠ []) →
      (now.flag_ = .retransmitted → p.sacks.Pairwise (fun s t => s.1 ≤ t.1) →
        ¬ Covered p.sacks now.seq_) →
      Processed dupack p now rest
        (lossNode dupack (p.board.fack_ - (dupack + 1)) { q with board := b } now₁ rest₁) := by
    intro now₁ rest₁ b hseq hfack hacked hlosing hrest hretran
    have hc := lossNode_checked dupack { q with board := b } now₁ rest₁
    rw [show ({ q with board := b } : Pass).board.fack_ = p.board.fack_ from hfack] at hc
    refine ⟨hc.sacks.trans hsacks, fun h => hc.thorough.trans (hthorough.trans h),
      fun _ => hc.acked.trans hacked, fun hl => ?_, fun hl i hi hie _ => ?_, fun h1 h2 h3 => ?_⟩
    · obtain ⟨h1, h2, -⟩ := hc.kept hl
      rw [h1, h2, hc.sacks]
      exact hrest
    · obtain ⟨-, h2, h3⟩ := hc.kept hl
      exact fun h => h3 i (hseq.trans_le hi) (h2 ▸ hie) ((hlosing i).mpr h)
    · exact absurd h3 (hretran h1 h2)
  rw [processNode, if_neg hf, ← hq]
  dsimp only
  cases hs : q.sacks with
  | nil =>
    have he : sackNode q now rest = (q, now, rest) := by simp only [sackNode, hs]
    rw [he, if_pos (by rw [hs]; rfl)]
    refine hcheck now rest q.board rfl (by rw [hboard]) (by rw [hboard]) (fun i => by rw [hboard])
      (.inl ⟨rfl, rfl⟩) fun _ _ hc => ?_
    obtain ⟨s, hmem, -⟩ := (hcov _ le_rfl).mpr hc
    rw [hs] at hmem
    cases hmem
  | cons s sacks =>
    obtain ⟨left, right⟩ := s
    have hright : now.seq_ < right := by
      have := List.head?_dropWhile_not (fun s : ℤ × ℤ => decide (s.2 ≤ now.seq_)) p.sacks
      rw [← hsacks, hs] at this
      simpa using this
    by_cases hle : left ≤ now.getEnd
    · by_cases hgt : left > now.seq_
      · -- the part before the block is split off
        obtain ⟨hr, hnxt⟩ := retransmitted_end hgt hle
        have he : sackNode q now rest = ({ q with board := (split q.board now left).2.2 },
            (split q.board now left).1, (split q.board now left).2.1 :: rest) := by
          simp only [sackNode, hs, if_pos hle, if_pos hgt]
        rw [he, if_pos (beyond_eq_true.mpr (by simp [hs, split, getEnd, hr]))]
        refine hcheck _ _ _ rfl (by rw [← hboard]; rfl) (by rw [← hboard]; rfl) (fun i => ?_)
          (.inr ⟨_, rfl, rfl, by simp [split, getEnd, hr], hr, by simp [hs]⟩) fun h => absurd h hr
        rw [← hboard]
        cases hflag : now.flag_ <;> simp_all [Losing, split]
      · -- the node begins inside of the block
        have he : sackNode q now rest = label q now rest right := by
          simp only [sackNode, hs, if_pos hle, if_neg hgt]
        have hl := label_labelled hright q rest
        have hlast := hl.last
        have hb : beyond (label q now rest right).1.sacks (label q now rest right).2.1 = false := by
          rw [hl.sacks, hs, beyond, decide_eq_false_iff_not]
          omega
        rw [he, if_neg (by rw [hb]; decide)]
        refine ⟨hl.sacks.trans hsacks, fun h => by simp [hl.thorough, hthorough, h], fun h => ?_,
          fun _ => ?_, fun _ i hi hie hnot _ => ?_, fun hr _ _ => by simp [hl.thorough, hr]⟩
        · rw [hl.thorough, Bool.or_eq_false_iff, decide_eq_false_iff_not] at h
          rw [hl.acked h.2, hboard]
        · rcases hl.rest with hrest | ⟨piece, h1, h2, h3, h4⟩
          · exact .inl hrest
          · exact .inr ⟨piece, h1, h2, h3, h4, by simp [hl.sacks, hs]⟩
        · have hlt : i < right := by
            have : i ≤ (label q now rest right).2.1.getEnd := hie
            omega
          exact hnot ((hcov i hi).mp ⟨(left, right), by simp [hs], (not_lt.mp hgt).trans hi, hlt⟩)
    · have he : sackNode q now rest = (q, now, rest) := by
        simp only [sackNode, hs, if_neg hle]
      rw [he, if_pos (beyond_eq_true.mpr (by simpa [hs] using hle))]
      refine hcheck now rest q.board rfl (by rw [hboard]) (by rw [hboard])
        (fun i => by rw [hboard]) (.inl ⟨rfl, rfl⟩) fun hr hsorted hc => ?_
      -- later blocks begin behind the node, too
      obtain ⟨s, hmem, h1, h2⟩ := (hcov _ le_rfl).mpr hc
      have hsorted' := hsorted.sublist (List.dropWhile_sublist fun s => decide (s.2 ≤ now.seq_))
      rw [← hsacks, hs, List.pairwise_cons] at hsorted'
      have hend : now.getEnd = now.seq_ := by rw [getEnd, if_pos hr]
      rw [hs] at hmem
      rcases List.mem_cons.mp hmem with rfl | hmem
      · dsimp only at h1
        omega
      · have := hsorted'.1 s hmem
        dsimp only at this
        omega

/-! ### The whole pass -/

theorem losing_congr {n n' : ScoreBoardNode1} (hfack : b'.fack_ = b.fack_)
    (hacked : b'.acked_rtx_id_ = b.acked_rtx_id_) (hflag : n'.flag_ = n.flag_)
    (hnode : n.flag_ = .retransmitted → n' = n) (i : ℤ) :
    Losing b' dupack n' i ↔ Losing b dupack n i := by
  cases hf : n.flag_ with
  | retransmitted =>
    rw [hnode hf]
    simp only [Losing, hf, hfack, hacked]
  | sacked => simp only [Losing, hflag, hf]
  | lost => simp only [Losing, hflag, hf]
  | inflight => simp only [Losing, hflag, hf, hfack]

/-- Why the pass does not miss the first lost node. -/
def Watch (dupack : ℤ) (p : Pass) (rest : List ScoreBoardNode1) : Prop :=
  p.thorough = true ∨ p.board.nxt_to_retrx_ ≠ none ∨
    if p.sacks = [] then ∀ n ∈ rest, n.flag_ ≠ .lost
    else (∃ n ∈ rest, n.flag_ = .retransmitted ∧ Covered p.sacks n.seq_) ∨
      Meets p.board dupack p.sacks rest

theorem Tiles.le_seq {lo hi : ℤ} {l : List ScoreBoardNode1} (h : Tiles lo hi l)
    {n : ScoreBoardNode1} (hn : n ∈ l) : lo ≤ n.seq_ := by
  induction l generalizing lo with
  | nil => cases hn
  | cons m l ih =>
    rcases List.mem_cons.mp hn with rfl | hn
    · exact h.1.ge
    · have := ih h.2.2 hn
      have := h.2.1
      omega

/-- A node that is sacked already. -/
theorem Meets.tail {sacks : List (ℤ × ℤ)} (h : Meets b dupack sacks (now :: rest))
    (hf : now.flag_ = .sacked) : Meets b dupack sacks rest := by
  intro m hm n hn hpassed hlost hlt
  obtain ⟨k, hk, i, hi, hcov, hlosing⟩ :=
    h m (List.mem_cons_of_mem _ hm) n (List.mem_cons_of_mem _ hn) hpassed hlost hlt
  rcases List.mem_cons.mp hk with rfl | hk
  · simp [Losing, hf] at hlosing
  · exact ⟨k, hk, i, hi, hcov, hlosing⟩

/-- The pass goes on to the next node, and has not met a lost one. -/
theorem Meets.processed {r : Pass × ScoreBoardNode1 × List ScoreBoardNode1}
    (h : Meets p.board dupack p.sacks (now :: rest)) (hp : Processed dupack p now rest r)
    (ht : Tiles mid hi (now :: rest)) (ht' : Tiles mid hi (r.2.1 :: r.2.2))
    (hf : now.flag_ ≠ .sacked) (hfack : r.1.board.fack_ = p.board.fack_)
    (hthorough : r.1.thorough = false) (hlost : r.2.1.flag_ ≠ .lost) :
    if r.1.sacks = [] then ∀ n ∈ r.2.2, n.flag_ ≠ .lost
    else Meets r.1.board dupack r.1.sacks r.2.2 := by
  have hseq : now.seq_ = mid := ht.1
  have hend : mid ≤ now.getEnd := ht.2.1
  have hdropped : ∀ s ∈ p.sacks, s ∈ r.1.sacks ∨ s.2 ≤ now.seq_ := by
    intro s hs
    rw [← List.takeWhile_append_dropWhile (p := fun s : ℤ × ℤ => decide (s.2 ≤ now.seq_))
      (l := p.sacks)] at hs
    refine (List.mem_append.mp hs).symm.imp (fun hs => hp.sacks ▸ hs) fun hs => ?_
    simpa using List.mem_takeWhile_imp hs
  split_ifs with hnil
  · -- the pass is about to stop
    intro n hn hnlost
    obtain ⟨hrest, hsame⟩ : r.2.2 = rest ∧ r.2.1.getEnd = now.getEnd := by
      rcases hp.rest hlost with hsame | ⟨_, _, _, _, _, hne⟩
      · exact hsame
      · exact absurd hnil hne
    rw [hrest] at hn
    have hbehind := ht.2.2.le_seq hn
    obtain ⟨k, hk, i, hi, hcov, hlosing⟩ := h now List.mem_cons_self n (List.mem_cons_of_mem _ hn)
      ⟨hf, fun s hs => by
        have := (hdropped s hs).resolve_left (by simp [hnil])
        omega⟩ hnlost (by omega)
    rw [Finset.mem_Icc] at hi
    rcases List.mem_cons.mp hk with rfl | hk
    · exact hp.losing hlost i hi.1 (by omega) hcov hlosing
    · have := ht.2.2.le_seq hk
      omega
  · intro m hm n hn hpassed hnlost hlt
    have hm' := ht'.2.2.le_seq hm
    have hme' := ht'.2.2.le_end hm
    have hrest : (r.2.2 = rest ∧ r.2.1.getEnd = now.getEnd) ∨ ∃ piece, r.2.2 = piece :: rest ∧
        piece.flag_ = now.flag_ ∧ piece.getEnd = now.getEnd ∧ now.flag_ ≠ .retransmitted := by
      rcases hp.rest hlost with hsame | ⟨piece, h1, h2, h3, h4, -⟩
      · exact .inl hsame
      · exact .inr ⟨piece, h1, h2, h3, h4⟩
    have hnrest : n ∈ rest := by
      rcases hrest with ⟨hr, -⟩ | ⟨piece, hr, -⟩
      · exact hr ▸ hn
      · have hpiece : piece.seq_ = r.2.1.getEnd + 1 := by
          have := ht'.2.2
          rw [hr] at this
          exact this.1
        rw [hr] at hn
        refine (List.mem_cons.mp hn).resolve_left fun he => ?_
        rw [he] at hlt
        omega
    obtain ⟨m₀, hm₀, hflag, hme⟩ : ∃ m₀ ∈ now :: rest, m₀.flag_ ≠ .sacked ∧
        m₀.getEnd = m.getEnd := by
      rcases hrest with ⟨hr, -⟩ | ⟨piece, hr, -, hpe, -⟩
      · exact ⟨m, List.mem_cons_of_mem _ (hr ▸ hm), hpassed.1, rfl⟩
      · rw [hr] at hm
        rcases List.mem_cons.mp hm with rfl | hm
        · exact ⟨now, List.mem_cons_self, hf, hpe.symm⟩
        · exact ⟨m, List.mem_cons_of_mem _ hm, hpassed.1, rfl⟩
    obtain ⟨k, hk, i, hi, hcov, hlosing⟩ := h m₀ hm₀ n (List.mem_cons_of_mem _ hnrest)
      ⟨hflag, fun s hs => by
        have := ht.le_seq hm₀
        have := ht.le_end hm₀
        rcases hdropped s hs with hs | hs
        · exact hme ▸ hpassed.2 s hs
        · omega⟩ hnlost (by omega)
    rw [hme, Finset.mem_Icc] at hi
    have hcov' : ¬ Covered r.1.sacks i := by
      rintro ⟨s, hs, h1⟩
      rw [hp.sacks] at hs
      exact hcov ⟨s, (List.dropWhile_sublist _).subset hs, h1⟩
    rcases List.mem_cons.mp hk with rfl | hk
    · -- a packet of this node, which is then behind what was done
      have hbehind : r.2.1.getEnd < i :=
        not_le.mp fun hle => hp.losing hlost i hi.1 hle hcov hlosing
      rcases hrest with ⟨-, hsame⟩ | ⟨piece, hr, hpf, hpe, hretran⟩
      · omega
      · have hpiece : piece.seq_ = r.2.1.getEnd + 1 := by
          have := ht'.2.2
          rw [hr] at this
          exact this.1
        refine ⟨piece, hr ▸ List.mem_cons_self, i, Finset.mem_Icc.mpr ⟨by omega, by omega⟩,
          hcov', ?_⟩
        exact (losing_congr hfack (hp.acked hthorough) hpf (fun h => absurd h hretran) i).mpr
          hlosing
    · have hk' : k ∈ r.2.2 := by
        rcases hrest with ⟨hr, -⟩ | ⟨piece, hr, -⟩
        · exact hr ▸ hk
        · exact hr ▸ List.mem_cons_of_mem _ hk
      refine ⟨k, hk', i, Finset.mem_Icc.mpr hi, hcov', ?_⟩
      exact (losing_congr hfack (hp.acked hthorough) rfl (fun _ => rfl) i).mpr hlosing

theorem Watch.processNode (h : Watch dupack p (now :: rest)) (ht : Tiles mid hi (now :: rest))
    (hsorted : p.sacks.Pairwise fun s t => s.1 ≤ t.1)
    (hgo : ¬ (p.sacks = [] ∧ p.thorough = false)) :
    Watch dupack (processNode dupack (p.board.fack_ - (dupack + 1)) p now rest).1
      (processNode dupack (p.board.fack_ - (dupack + 1)) p now rest).2.2 := by
  obtain ⟨hr, hn⟩ := processNode_spec dupack (p.board.fack_ - (dupack + 1)) p now rest
  by_cases hf : now.flag_ = .sacked
  · rw [ScoreBoard1.processNode, if_pos hf]
    refine h.imp id (Or.imp id fun h => ?_)
    split_ifs at h ⊢ with hnil
    · exact fun n hn => h n (List.mem_cons_of_mem _ hn)
    · rcases h with ⟨n, hn, hflag, hcov⟩ | h
      · refine .inl ⟨n, (List.mem_cons.mp hn).resolve_left fun he => ?_, hflag, hcov⟩
        rw [he, hf] at hflag
        cases hflag
      · exact .inr (h.tail hf)
  · have hp := processNode_processed dupack p hf rest
    by_cases hthorough : (ScoreBoard1.processNode dupack (p.board.fack_ - (dupack + 1)) p now
      rest).1.thorough = true
    · exact .inl hthorough
    by_cases hnxt : (ScoreBoard1.processNode dupack (p.board.fack_ - (dupack + 1)) p now
      rest).1.board.nxt_to_retrx_ = none
    swap
    · exact .inr (.inl hnxt)
    refine .inr (.inr ?_)
    have hlost : (ScoreBoard1.processNode dupack (p.board.fack_ - (dupack + 1)) p now
        rest).2.1.flag_ ≠ .lost := by
      intro hlost
      rw [hn, if_pos hlost] at hnxt
      simp at hnxt
    rw [hn, if_neg hlost] at hnxt
    have hpt : ¬ p.thorough = true := fun h => hthorough (hp.thorough h)
    have hne : p.sacks ≠ [] := fun h => hgo ⟨h, by simpa using hpt⟩
    obtain h := (h.resolve_left hpt).resolve_left (by simp [hnxt])
    rw [if_neg hne] at h
    have ht' := hr.tiles mid hi ht
    rcases h with ⟨n, hnm, hretran, hcov⟩ | h
    · have hnrest : n ∈ rest := by
        refine (List.mem_cons.mp hnm).resolve_left fun he => ?_
        subst he
        exact hthorough (hp.retran hretran hsorted hcov)
      have hseq : now.seq_ ≤ n.seq_ := by
        have := ht.2.2.le_seq hnrest
        have := ht.1
        have := ht.2.1
        omega
      have hcov' := (covered_dropWhile hseq).mpr hcov
      rw [← hp.sacks] at hcov'
      rw [if_neg fun hnil => by
        obtain ⟨s, hs, -⟩ := hcov'
        rw [hnil] at hs
        cases hs]
      refine .inl ⟨n, ?_, hretran, hcov'⟩
      rcases hp.rest hlost with ⟨hr, -⟩ | ⟨piece, hr, -⟩
      · rw [hr]
        exact hnrest
      · rw [hr]
        exact List.mem_cons_of_mem _ hnrest
    · have := h.processed hp ht ht' hf hr.fack (by simpa using hthorough) hlost
      split_ifs at this ⊢
      · exact this
      · exact .inr this

theorem processNode_sublist (dupack : ℤ) (p : Pass) (now : ScoreBoardNode1)
    (rest : List ScoreBoardNode1) :
    (processNode dupack (p.board.fack_ - (dupack + 1)) p now rest).1.sacks.Sublist p.sacks := by
  by_cases hf : now.flag_ = .sacked
  · rw [processNode, if_pos hf]
  · rw [(processNode_processed dupack p hf rest).sacks]
    exact List.dropWhile_sublist _

theorem Watch.extend (h : Watch dupack p rest) (done : List ScoreBoardNode1) :
    Watch dupack { p with board := (extend p.board done rest).2 } (extend p.board done rest).1 := by
  unfold ScoreBoard1.extend
  split
  · split_ifs
    · refine h.imp id (Or.imp id fun _ => ?_)
      split_ifs
      · simp [alloc]
      · refine .inr fun m hm n hn _ hlost => ?_
        obtain rfl := List.mem_singleton.mp hn
        cases hlost
    · exact h
  · exact h

theorem extend_nxt (b : ScoreBoard1) (done rest : List ScoreBoardNode1) :
    (extend b done rest).2.nxt_to_retrx_ = b.nxt_to_retrx_ := by
  unfold extend
  split
  · split_ifs <;> rfl
  · rfl

/-- A pass that ends, at its end or before, has the pointer at the first lost node. -/
theorem traverse_first {fuel f : ℕ} (h : PassInv p.board done rest lo mid hi)
    (hfirst : FirstLost p.board.nxt_to_retrx_ done.reverse) (hw : Watch dupack p rest)
    (hsorted : p.sacks.Pairwise fun s t => s.1 ≤ t.1)
    (he : traverse dupack (p.board.fack_ - (dupack + 1)) fuel p done rest = some (b, f)) :
    FirstLost b.nxt_to_retrx_ b.nodes := by
  induction fuel generalizing p done rest mid hi with
  | zero => cases he
  | succ fuel ih =>
    cases rest with
    | nil =>
      obtain ⟨rfl, -⟩ := Prod.mk.inj (Option.some.inj he)
      exact hfirst
    | cons now rest =>
      rw [traverse] at he
      by_cases hstop : p.sacks = [] ∧ p.thorough = false
      · rw [if_pos hstop] at he
        obtain ⟨rfl, -⟩ := Prod.mk.inj (Option.some.inj he)
        dsimp only
        cases hn : p.board.nxt_to_retrx_ with
        | some a => exact (hn ▸ hfirst : FirstLost (some a) done.reverse).append _
        | none =>
          have hrest := (hw.resolve_left (by simp [hstop.2])).resolve_left (by simp [hn])
          rw [if_pos hstop.1] at hrest
          rw [hn] at hfirst
          intro n hnm
          exact (List.mem_append.mp hnm).elim (hfirst n) (hrest n)
      · rw [if_neg hstop] at he
        obtain ⟨hr, hn⟩ := processNode_spec dupack (p.board.fack_ - (dupack + 1)) p now rest
        obtain ⟨hmid, hinv⟩ := h.merge hr hn
        obtain ⟨hi', h3, h4, -⟩ := hinv.extend
        have hw' := hw.processNode h.ahead hsorted hstop
        have hsub := processNode_sublist dupack p now rest
        have hmerge := hfirst.mergeNode
          (processNode dupack (p.board.fack_ - (dupack + 1)) p now rest).2.1
        rw [hr.addr, ← hn] at hmerge
        refine ih h4 ?_ (hw'.extend _) (hsorted.sublist hsub) ?_
        · rw [extend_nxt]
          exact hmerge
        · rw [h3, hr.fack]
          exact he

/-! ### Cleaning -/

/-- The nodes above an acknowledgement. -/
def above (last_ack : ℤ) (nodes : List ScoreBoardNode1) : List ScoreBoardNode1 :=
  (nodes.filter fun n => decide (last_ack < n.getEnd)).map fun n =>
    { n with seq_ := max n.seq_ (last_ack + 1) }

theorem above_of_lt (h : Tiles lo hi l) (hlt : last_ack < lo) : above last_ack l = l := by
  induction l generalizing lo with
  | nil => rfl
  | cons n l ih =>
    have hend := h.2.1
    have hseq : max n.seq_ (last_ack + 1) = n.seq_ := by
      have := h.1
      omega
    rw [above, List.filter_cons_of_pos (by simp; omega), List.map_cons, hseq]
    exact congrArg (n :: ·) (ih h.2.2 (by omega))

theorem FirstLost.dropHead {n : ScoreBoardNode1}
    (h : FirstLost b.nxt_to_retrx_ (n :: rest)) :
    FirstLost (dropHead b n rest).nxt_to_retrx_ rest := by
  rw [ScoreBoard1.dropHead]
  dsimp only
  split_ifs with hp
  · cases rest with
    | nil => exact fun m hm => absurd hm List.not_mem_nil
    | cons m rest => exact ⟨[], m, rest, rfl, rfl, by simp⟩
  · cases hn : b.nxt_to_retrx_ with
    | none =>
      rw [hn] at h
      exact fun m hm => h m (List.mem_cons_of_mem _ hm)
    | some a =>
      rw [hn] at h hp
      obtain ⟨front, m, back, he, ha, hf⟩ := h
      cases front with
      | nil =>
        obtain ⟨rfl, -⟩ := List.cons.inj he
        exact absurd (congrArg some ha.symm) hp
      | cons k front =>
        obtain ⟨rfl, rfl⟩ := List.cons.inj he
        exact ⟨front, m, back, rfl, ha, fun x hx => hf x (List.mem_cons_of_mem _ hx)⟩

/-- Cleaning keeps the pointer at the first lost node, and notices every newer retransmission that
is acknowledged. -/
theorem cleanRtxQueue_first {c c' : Bool} {f f' : ℕ} (h : Good b l)
    (hfirst : FirstLost b.nxt_to_retrx_ l)
    (he : cleanRtxQueue last_ack l b c f = some (b', c', f')) :
    b'.nodes = above last_ack l ∧ FirstLost b'.nxt_to_retrx_ b'.nodes ∧
      (c' = false → b'.acked_rtx_id_ = b.acked_rtx_id_ ∧ c = false ∧
        ∀ n ∈ l, n.flag_ = .retransmitted → n.seq_ ≤ last_ack → n.retran_ ≤ b.acked_rtx_id_) := by
  induction l generalizing b c f with
  | nil =>
    obtain ⟨rfl, h⟩ := Prod.mk.inj (Option.some.inj he)
    obtain ⟨rfl, -⟩ := Prod.mk.inj h
    exact ⟨rfl, hfirst, fun hc => ⟨rfl, hc, by simp⟩⟩
  | cons n rest ih =>
    obtain ⟨lo, hi, ht⟩ := h.tiles
    have hne : n.seq_ ≤ n.getEnd := ht.le_end (by simp)
    rcases lt_or_ge last_ack n.seq_ with hlt | hge
    · simp only [cleanRtxQueue, shouldClean_of_lt hlt, if_true, Option.some.injEq,
        Prod.mk.injEq] at he
      obtain ⟨rfl, rfl, -⟩ := he
      refine ⟨(above_of_lt ht (ht.1 ▸ hlt)).symm, hfirst, fun hc => ⟨rfl, hc, fun m hm _ hle => ?_⟩⟩
      have := ht.le_seq hm
      have := ht.1
      omega
    · rcases le_or_gt n.getEnd last_ack with hall | hpart
      · simp only [cleanRtxQueue, shouldClean_all hge hall] at he
        rw [if_neg (by decide), if_pos (by decide), discount_spec h le_rfl, Option.bind_some,
          if_pos (by decide)] at he
        have hdrop : FirstLost (dropHead _ n rest).nxt_to_retrx_ rest :=
          FirstLost.dropHead (b := { b with
            sack_out_ := b.sack_out_ - if n.flag_ = .sacked then n.getLength else 0
            fack_out_ := b.fack_out_ - if n.flag_ = .lost then n.getLength else 0 }) hfirst
        obtain ⟨h1, h2, h3⟩ := ih h.dropHead hdrop he
        refine ⟨?_, h2, fun hc => ?_⟩
        · rw [h1, above, above, List.filter_cons_of_neg (by simpa using hall)]
        · obtain ⟨h4, h5, h6⟩ := h3 hc
          rw [Bool.or_eq_false_iff, decide_eq_false_iff_not] at h5
          have hacked : (dropHead { b with
              sack_out_ := b.sack_out_ - if n.flag_ = .sacked then n.getLength else 0
              fack_out_ := b.fack_out_ - if n.flag_ = .lost then n.getLength else 0 } n
              rest).acked_rtx_id_ = b.acked_rtx_id_ := if_neg h5.2
          rw [hacked] at h4 h6
          refine ⟨h4, h5.1, fun m hm hretran hle => ?_⟩
          rcases List.mem_cons.mp hm with rfl | hm
          · exact not_lt.mp fun hlt => h5.2 ⟨hretran, hlt⟩
          · exact h6 m hm hretran hle
      · obtain ⟨hcmp, hr⟩ := shouldClean_part hge hpart
        have hlen : last_ack + 1 - n.seq_ ≤ n.getLength := by
          rw [getEnd, if_neg hr] at hpart
          rw [getLength, if_neg hr]
          omega
        simp only [cleanRtxQueue, hcmp] at he
        rw [if_neg (by omega), if_neg (by omega), discount_spec h hlen, Option.bind_some,
          if_neg (by omega)] at he
        simp only [Option.some.injEq, Prod.mk.injEq] at he
        obtain ⟨rfl, rfl, -⟩ := he
        refine ⟨?_, hfirst.congr (by simp), fun hc => ⟨rfl, hc, fun m hm hretran hle => ?_⟩⟩
        · rw [above, List.filter_cons_of_pos (by simpa using hpart), List.map_cons,
            max_eq_right (by omega)]
          exact congrArg (_ :: ·) (above_of_lt ht.2.2 (by omega)).symm
        · rcases List.mem_cons.mp hm with rfl | hm
          · exact absurd hretran hr
          · have := ht.2.2.le_seq hm
            omega

/-! ### Operations -/

theorem insertSack_pairwise {sacks : List (ℤ × ℤ)} (h : sacks.Pairwise fun s t => s.1 ≤ t.1)
    (s : ℤ × ℤ) : (insertSack sacks s).Pairwise fun s t => s.1 ≤ t.1 := by
  rw [insertSack, List.pairwise_reverse]
  have hrev : sacks.reverse.Pairwise fun s t => t.1 ≤ s.1 := List.pairwise_reverse.mpr h
  rw [← List.takeWhile_append_dropWhile (p := fun t : ℤ × ℤ => decide (t.1 > s.1))
    (l := sacks.reverse), List.pairwise_append] at hrev
  obtain ⟨h1, h2, h3⟩ := hrev
  refine List.pairwise_append.mpr
    ⟨h1, List.pairwise_cons.mpr ⟨fun t ht => ?_, h2⟩, fun x hx y hy => ?_⟩
  · have hfirst := List.head?_dropWhile_not (fun t : ℤ × ℤ => decide (t.1 > s.1)) sacks.reverse
    cases hd : sacks.reverse.dropWhile fun t => decide (t.1 > s.1) with
    | nil =>
      rw [hd] at ht
      cases ht
    | cons d tail =>
      rw [hd] at h2 ht hfirst
      have hle : d.1 ≤ s.1 := by simpa using hfirst
      rcases List.mem_cons.mp ht with rfl | ht
      · exact hle
      · exact ((List.pairwise_cons.mp h2).1 t ht).trans hle
  · rcases List.mem_cons.mp hy with rfl | hy
    · have := List.mem_takeWhile_imp hx
      simp only [gt_iff_lt, decide_eq_true_eq] at this
      exact this.le
    · exact h3 x hx y hy

theorem sortSacks_pairwise (last_ack : ℤ) (sacks : List (ℤ × ℤ)) :
    (sortSacks last_ack sacks).Pairwise fun s t => s.1 ≤ t.1 := by
  rw [sortSacks]
  suffices hgen : ∀ (l acc : List (ℤ × ℤ)), (acc.Pairwise fun s t => s.1 ≤ t.1) →
      (l.foldl insertSack acc).Pairwise fun s t => s.1 ≤ t.1 from hgen _ [] .nil
  intro l
  induction l with
  | nil => exact fun acc h => h
  | cons s l ih => exact fun acc h => ih _ (insertSack_pairwise h s)

/-- An update does not stop before a lost node without having met another one: there is nothing to
do, the whole board is looked through, or a packet up to the end of the blocks is lost. -/
def Finds (b : ScoreBoard1) : Op → Prop
  | .updateScoreBoard last_ack sacks dupack =>
    let sorted := sortSacks last_ack sacks
    let nodes := above last_ack b.nodes
    sorted = [] ∨
      (∃ n ∈ b.nodes, n.flag_ = .retransmitted ∧ n.seq_ ≤ last_ack ∧ b.acked_rtx_id_ < n.retran_) ∨
      (∃ s ∈ sorted.getLast?, b.fack_ < s.2 - 1) ∨
      (∃ n ∈ nodes, n.flag_ = .retransmitted ∧ Covered sorted n.seq_) ∨
      Meets b dupack sorted nodes
  | _ => True

theorem pass_first {head : ScoreBoardNode1} {sacks : List (ℤ × ℤ)} {thorough : Bool}
    {fuel flag f : ℕ} (h : Good b (head :: l))
    (hsorted : sacks.Pairwise fun s t => s.1 ≤ t.1)
    (hw : Watch dupack ⟨{ b with nxt_to_retrx_ := none }, sacks, thorough, flag⟩ (head :: l))
    (he : traverse dupack (b.fack_ - (dupack + 1)) fuel
      ⟨{ b with nxt_to_retrx_ := none }, sacks, thorough, flag⟩ [] (head :: l) = some (b', f)) :
    FirstLost b'.nxt_to_retrx_ b'.nodes := by
  obtain ⟨lo, hi, ht⟩ := h.tiles
  have hstart : PassInv { b with nxt_to_retrx_ := none } [] (head :: l) lo lo hi :=
    ⟨rfl, ht, h.sack, h.lost, by simp, by simp, h.ids⟩
  exact traverse_first hstart (fun n hn => absurd hn List.not_mem_nil) hw hsorted he

theorem update_first {sacks : List (ℤ × ℤ)} {f : ℕ} (h : Good b b.nodes)
    (hfirst : FirstLost b.nxt_to_retrx_ b.nodes)
    (hopens : Opens b (.updateScoreBoard last_ack sacks dupack))
    (hfinds : Finds b (.updateScoreBoard last_ack sacks dupack))
    (he : updateScoreBoard last_ack sacks dupack b = some (b', f)) :
    FirstLost b'.nxt_to_retrx_ b'.nodes := by
  obtain ⟨b₁, c, f₁, h1, h2, h3, h4⟩ := @cleanRtxQueue_spec last_ack _ _ false 0 h
  obtain ⟨h5, h6, h7⟩ := cleanRtxQueue_first h hfirst h1
  have hsorted := sortSacks_pairwise last_ack sacks
  rw [updateScoreBoard, h1, Option.bind_some] at he
  dsimp only at he
  cases hnodes : b₁.nodes with
  | nil =>
    simp only [hnodes, List.isEmpty_nil, Bool.not_true, Bool.and_false, if_true, true_and,
      Bool.false_or] at he
    by_cases hret : sacks = [] ∨ sortSacks last_ack sacks = []
    · rw [if_pos hret] at he
      obtain ⟨rfl, -⟩ := Prod.mk.inj (Option.some.inj he)
      exact fun n hn => absurd hn List.not_mem_nil
    · rw [if_neg hret] at he
      push Not at hret
      obtain ⟨s, hs⟩ := Option.ne_none_iff_exists'.mp (mt List.getLast?_eq_none_iff.mp hret.2)
      have hbehind := hopens (h4.mp hnodes) s hs
      obtain ⟨left, right⟩ := s
      rw [hs] at he
      have hfack : last_ack < if 0 < right - 1 then right - 1 else 0 := by
        dsimp only at hbehind
        split_ifs <;> omega
      -- a new board has no lost node
      refine pass_first (new_board_good b₁ hfack) hsorted (.inr (.inr ?_)) he
      rw [if_neg hret.2]
      refine .inr fun m hm n hn _ hlost => ?_
      obtain rfl := List.mem_singleton.mp hn
      cases hlost
  | cons head l =>
    simp only [hnodes, List.isEmpty_cons, Bool.not_false, Bool.and_true, Bool.false_eq_true,
      if_false] at he
    rw [hnodes] at h2 h5
    by_cases hret : c = false ∧ (sacks = [] ∨ sortSacks last_ack sacks = [])
    · rw [if_pos hret] at he
      obtain ⟨rfl, -⟩ := Prod.mk.inj (Option.some.inj he)
      exact h6
    · rw [if_neg hret] at he
      have hgood : ∀ fack, Good { b₁ with nodes := head :: l, fack_ := fack } (head :: l) :=
        fun fack => ⟨h2.tiles, h2.sack, h2.lost, h2.ptr, h2.ids⟩
      cases c with
      | true => exact pass_first (hgood _) hsorted (.inl rfl) he
      | false =>
        have hne : sortSacks last_ack sacks ≠ [] := fun hnil => hret ⟨rfl, .inr hnil⟩
        obtain ⟨s, hs⟩ := Option.ne_none_iff_exists'.mp (mt List.getLast?_eq_none_iff.mp hne)
        obtain ⟨left, right⟩ := s
        rw [hs] at he
        dsimp only at he
        obtain ⟨hacked, -, hids⟩ := h7 rfl
        by_cases hlt : b₁.fack_ < right - 1
        · simp only [if_pos hlt] at he
          exact pass_first (hgood _) hsorted (.inl (by simpa using hlt)) he
        · -- the pass may stop early
          simp only [if_neg hlt] at he
          refine pass_first (hgood _) hsorted (.inr (.inr ?_)) he
          rw [if_neg hne, h5]
          rcases hfinds with hnil | ⟨n, hn, hretran, hle, hid⟩ | ⟨s, hsl, hfack⟩ | hcov | hmeets
          · exact absurd hnil hne
          · exact absurd hid (not_lt.mpr (hids n hn hretran hle))
          · obtain rfl := Option.some.inj (hs.symm.trans hsl)
            exact absurd (h3 ▸ hfack) hlt
          · exact .inl hcov
          · refine .inr fun m hm n hn hpassed hlost hmn => ?_
            obtain ⟨k, hk, i, hi, hcov, hlosing⟩ := hmeets m hm n hn hpassed hlost hmn
            exact ⟨k, hk, i, hi, hcov, (losing_congr h3 hacked rfl (fun _ => rfl) i).mpr hlosing⟩

/-- The pointer is at the first lost node. -/
structure Points (b : ScoreBoard1) : Prop where
  good : Good b b.nodes
  first : FirstLost b.nxt_to_retrx_ b.nodes

/-- The pointer goes on to the first lost node, if there is one. -/
theorem Points.getNextRetran (h : Points b) : ∃ b' r, getNextRetran b = some (b', r) ∧
    b'.nodes = b.nodes ∧
    (r = -1 ∧ b'.nxt_to_retrx_ = none ∧ (∀ n ∈ b.nodes, n.flag_ ≠ .lost) ∨
      ∃ front n back, b.nodes = front ++ n :: back ∧ (∀ m ∈ front, m.flag_ ≠ .lost) ∧
        n.flag_ = .lost ∧ b'.nxt_to_retrx_ = some n.addr ∧ r = n.seq_) := by
  have hfirst := h.first
  rw [ScoreBoard1.getNextRetran]
  cases hp : b.nxt_to_retrx_ with
  | none =>
    rw [hp] at hfirst
    exact ⟨b, -1, rfl, rfl, .inl ⟨rfl, hp, hfirst⟩⟩
  | some a =>
    rw [hp] at hfirst
    obtain ⟨front, n, back, hnodes, ha, hfront⟩ := hfirst
    have haddr := (hnodes ▸ h.good).addr_ne
    have hdrop : b.nodes.dropWhile (fun m => decide (m.addr ≠ a)) = n :: back := by
      rw [hnodes, ← ha, List.dropWhile_append_of_pos (by simpa using haddr)]
      simp
    dsimp only
    rw [hdrop]
    dsimp only
    cases hfind : (n :: back).find? fun m => decide (m.flag_ = .lost) with
    | none =>
      refine ⟨_, -1, rfl, rfl, .inl ⟨rfl, rfl, fun m hm => ?_⟩⟩
      rw [hnodes] at hm
      refine (List.mem_append.mp hm).elim (hfront m) fun hm => ?_
      simpa using List.find?_eq_none.mp hfind m hm
    | some m =>
      obtain ⟨hm, before, after, hsplit, hbefore⟩ := List.find?_eq_some_iff_append.mp hfind
      refine ⟨_, m.seq_, rfl, rfl, .inr ⟨front ++ before, m, after, ?_, fun k hk => ?_,
        by simpa using hm, rfl, rfl⟩⟩
      · rw [hnodes, hsplit, List.append_assoc]
      · exact (List.mem_append.mp hk).elim (hfront k) fun hk => by simpa using hbefore k hk

theorem markRetran_first {n : ScoreBoardNode1} {front back : List ScoreBoardNode1}
    {seq snd_nxt : ℤ} (h : Good b (front ++ n :: back)) (hnodes : b.nodes = front ++ n :: back)
    (hp : b.nxt_to_retrx_ = some n.addr) (hf : ∀ m ∈ front, m.flag_ ≠ .lost)
    (he : markRetran seq snd_nxt b = some b') : FirstLost b'.nxt_to_retrx_ b'.nodes := by
  rw [markRetran, hp, Option.bind_some, hnodes, h.span] at he
  dsimp only at he
  split_ifs at he with hin hgt
  · obtain rfl := Option.some.inj he
    exact hp ▸ ⟨front, _, _, rfl, rfl, hf⟩
  · obtain rfl := Option.some.inj he
    exact hp ▸ ⟨front, _, _, rfl, rfl, hf⟩

theorem FirstLost.lossStep {done' : List ScoreBoardNode1} {last_lost last_lost' : Bool}
    (hfirst : FirstLost b.nxt_to_retrx_ done.reverse) (h : PassInv b done (now :: rest) lo mid hi)
    (hlast : LastLost done last_lost)
    (he : lossStep (done, last_lost, b) now = (done', last_lost', b')) :
    FirstLost b'.nxt_to_retrx_ done'.reverse := by
  by_cases hs : now.flag_ = .sacked
  · simp only [ScoreBoard1.lossStep, if_pos hs, Prod.mk.injEq] at he
    obtain ⟨rfl, -, rfl⟩ := he
    have := hfirst.offer now
    rw [if_neg (by simp [hs])] at this
    rwa [List.reverse_cons]
  · obtain ⟨b₁, -, hnxt, hstep⟩ := lossStep_eq h hlast hs
    simp only [hstep, Prod.mk.injEq] at he
    obtain ⟨rfl, -, rfl⟩ := he
    have hflag : (now.setFlag .lost).flag_ = .lost := rfl
    have := hfirst.mergeNode (now.setFlag .lost)
    rw [if_pos hflag] at this
    rw [ScoreBoard1.offer, hnxt]
    exact this

theorem FirstLost.foldl_lossStep {done' : List ScoreBoardNode1} {last_lost last_lost' : Bool}
    (hfirst : FirstLost b.nxt_to_retrx_ done.reverse) (h : PassInv b done l lo mid hi)
    (hlast : LastLost done last_lost)
    (he : l.foldl ScoreBoard1.lossStep (done, last_lost, b) = (done', last_lost', b')) :
    FirstLost b'.nxt_to_retrx_ done'.reverse := by
  induction l generalizing b done last_lost mid with
  | nil =>
    simp only [List.foldl_nil, Prod.mk.injEq] at he
    obtain ⟨rfl, -, rfl⟩ := he
    exact hfirst
  | cons now l ih =>
    obtain ⟨done₁, last₁, b₁, mid₁, h1, h2, h3⟩ := lossStep_spec h hlast
    rw [List.foldl_cons, h1] at he
    exact ih (hfirst.lossStep h hlast h1) h2 h3 he

theorem markLoss_first (h : Good b b.nodes) (snd_una snd_nxt : ℤ) :
    FirstLost (markLoss snd_una snd_nxt b).nxt_to_retrx_ (markLoss snd_una snd_nxt b).nodes := by
  obtain ⟨lo, hi, ht⟩ := h.tiles
  have hstart : PassInv { b with nxt_to_retrx_ := none } [] b.nodes lo lo hi :=
    ⟨rfl, ht, h.sack, h.lost, by simp, by simp, h.ids⟩
  have hlast : LastLost [] false := by simp [LastLost]
  obtain ⟨done, last_lost, b₁, h1, h2, h3⟩ := foldl_lossStep hstart hlast
  have hfirst := FirstLost.foldl_lossStep (fun n hn => absurd hn List.not_mem_nil) hstart hlast h1
  simp only [markLoss, h1]
  cases done with
  | nil =>
    dsimp only
    split_ifs
    · exact ⟨[], _, [], rfl, rfl, by simp⟩
    · exact hfirst
  | cons prev done =>
    dsimp only
    split_ifs with hlt
    · obtain ⟨done', last_lost', b', mid', h4, h5, -⟩ := lossStep_spec (h2.append_node hlt) h3
      have := FirstLost.lossStep (b := (alloc b₁ (prev.getEnd + 1) (snd_nxt - 1)).2) hfirst
        (h2.append_node hlt) h3 h4
      simp only [h4]
      exact this
    · exact hfirst

theorem Points.step {op : Op} (h : Points b) (hopens : Opens b op) (hfinds : Finds b op) :
    ∃ b' o, step b op = some (b', o) ∧ Points b' := by
  obtain ⟨b', o, he, hgood⟩ := step_good h.good hopens
  refine ⟨b', o, he, hgood, ?_⟩
  cases op with
  | updateScoreBoard last_ack sacks dupack =>
    obtain ⟨⟨b₁, f⟩, hu, hb⟩ := Option.map_eq_some_iff.mp he
    obtain rfl : b₁ = b' := congrArg Prod.fst hb
    exact update_first h.good h.first hopens hfinds hu
  | retran snd_nxt =>
    obtain ⟨b₁, r, h1, hnodes, hr⟩ := h.getNextRetran
    obtain ⟨b₂, r', h2, hgood₁, -⟩ := getNextRetran_spec h.good
    obtain ⟨rfl, rfl⟩ := Prod.mk.inj (Option.some.inj (h1.symm.trans h2))
    rw [ScoreBoard1.step, h1, Option.bind_some] at he
    dsimp only at he
    rcases hr with ⟨rfl, hp, hnone⟩ | ⟨front, n, back, hsplit, hfront, hlost, hp, rfl⟩
    · rw [if_pos rfl] at he
      obtain ⟨rfl, -⟩ := Prod.mk.inj (Option.some.inj he)
      rw [hp, hnodes]
      exact hnone
    · rw [← hnodes] at hsplit
      split_ifs at he with hseq
      · obtain ⟨rfl, -⟩ := Prod.mk.inj (Option.some.inj he)
        rw [hp, hsplit]
        exact ⟨front, n, back, rfl, rfl, hfront⟩
      · obtain ⟨b₂, hmark, hb⟩ := Option.map_eq_some_iff.mp he
        obtain rfl : b₂ = b' := congrArg Prod.fst hb
        exact markRetran_first (hsplit ▸ hgood₁) hsplit hp hfront hmark
  | markLoss snd_una snd_nxt =>
    obtain ⟨rfl, -⟩ := Prod.mk.inj (Option.some.inj he)
    exact markLoss_first h.good snd_una snd_nxt
  | clearScoreBoard =>
    obtain ⟨rfl, -⟩ := Prod.mk.inj (Option.some.inj he)
    exact fun n hn => absurd hn List.not_mem_nil


/-! ### Runs -/

/-- `GetNextRetran` returns the smallest packet in a node that is lost, and none only if no node
is. -/
def NextLost (b : ScoreBoard1) : Prop :=
  ∃ b' r, getNextRetran b = some (b', r) ∧
    ((∃ n ∈ b.nodes, n.flag_ = .lost) →
      IsLeast {i | ∃ n ∈ b.nodes, n.flag_ = .lost ∧ n.seq_ ≤ i ∧ i ≤ n.getEnd} r) ∧
    ((∀ n ∈ b.nodes, n.flag_ ≠ .lost) → r = -1)

theorem Points.nextLost (h : Points b) : NextLost b := by
  obtain ⟨b', r, he, -, hr⟩ := h.getNextRetran
  refine ⟨b', r, he, ?_⟩
  rcases hr with ⟨rfl, -, hnone⟩ | ⟨front, n, back, hnodes, hfront, hlost, -, rfl⟩
  · refine ⟨?_, fun _ => rfl⟩
    rintro ⟨n, hn, hlost⟩
    exact absurd hlost (hnone n hn)
  · obtain ⟨lo, hi, ht⟩ := h.good.tiles
    have hmem : n ∈ b.nodes := by simp [hnodes]
    refine ⟨fun _ => ⟨⟨n, hmem, hlost, le_rfl, ht.le_end hmem⟩, ?_⟩,
      fun hnone => absurd hlost (hnone n hmem)⟩
    rintro i ⟨m, hm, hmlost, hmi, -⟩
    rw [hnodes] at hm ht
    obtain ⟨mid, -, hback⟩ := tiles_append.mp ht
    rcases List.mem_append.mp hm with hm | hm
    · exact absurd hmlost (hfront m hm)
    · have := hback.le_seq hm
      have := hback.1
      omega

/-- In every state of a run in which no update stops before a lost node unnoticed, the next packet
to be retransmitted is the smallest lost one. -/
theorem next_retran_smallest {ops : List Op}
    (hops : Machine.Admits step (fun b op => Opens b op ∧ Finds b op) new ops) :
    Machine.Always step NextLost new ops := by
  have hstart : Points new := ⟨good_nil rfl rfl rfl, fun n hn => absurd hn List.not_mem_nil⟩
  have hstep : ∀ b op, Points b → True → Opens b op ∧ Finds b op →
      ∃ b' o, step b op = some (b', o) ∧ Points b' :=
    fun b op h _ hop => h.step hop.1 hop.2
  exact Machine.always_of_admits (fun b h => h.nextLost) hstep hstart
    (Machine.admits_true step new ops) hops

theorem next_retran_smallest_hole : Machine.Always step NextLost new
    [.updateScoreBoard 5 [(12, 13)] 3, .retran 13, .updateScoreBoard 5 [(12, 14)] 3] := by
  refine next_retran_smallest ⟨⟨?_, .inr (.inr (.inl ⟨(12, 13), rfl, by decide⟩))⟩, ?_⟩
  · rintro - s hs
    obtain rfl := Option.some.inj hs
    exact .inr (by decide)
  intro b o hb
  obtain ⟨rfl, -⟩ := Prod.mk.inj (Option.some.inj hb)
  refine ⟨⟨trivial, trivial⟩, ?_⟩
  intro b o hb
  obtain ⟨rfl, -⟩ := Prod.mk.inj (Option.some.inj hb)
  refine ⟨⟨?_, .inr (.inr (.inl ⟨(12, 14), rfl, by decide⟩))⟩, fun _ _ _ => trivial⟩
  rintro - s hs
  obtain rfl := Option.some.inj hs
  exact .inr (by decide)

/-- The packet 8 is lost, and the pass stops at its node after all blocks. -/
theorem next_retran_missed : ¬ ∀ snd_nxt ops, (lastAcks ops).Pairwise (· ≤ ·) →
    (∀ op ∈ ops, Within snd_nxt op) → Machine.Always step NextLost new ops := by
  intro h
  have hsent := h 13 [.updateScoreBoard 5 [(12, 13)] 3, .retran 13, .retran 13,
    .updateScoreBoard 5 [(6, 7)] 3, .updateScoreBoard 5 [(6, 7)] 3] (by decide) (by simp [Within])
  obtain ⟨b, os, hrun, b', r, hnext, hlost, -⟩ := hsent.run
  have hb : (Machine.run step new [.updateScoreBoard 5 [(12, 13)] 3, .retran 13, .retran 13,
      .updateScoreBoard 5 [(6, 7)] 3, .updateScoreBoard 5 [(6, 7)] 3]).map
        (fun p => (p.1.nodes.map (fun n => (n.seq_, n.flag_)), (getNextRetran p.1).map Prod.snd)) =
      some ([(6, .sacked), (7, .retransmitted), (8, .lost), (9, .inflight), (12, .sacked)],
        some (-1)) := by decide
  rw [hrun] at hb
  obtain ⟨hnodes, hr⟩ := Prod.mk.inj (Option.some.inj hb)
  rw [hnext] at hr
  obtain rfl : r = -1 := Option.some.inj hr
  have hmem : (8, SkbFlag.lost) ∈ b.nodes.map fun n => (n.seq_, n.flag_) := by simp [hnodes]
  obtain ⟨n, hn, he⟩ := List.mem_map.mp hmem
  obtain ⟨m, hm, -, hle, -⟩ := (hlost ⟨n, hn, (Prod.mk.inj he).2⟩).1
  have hseq := List.mem_map_of_mem (f := fun n : ScoreBoardNode1 => (n.seq_, n.flag_)) hm
  rw [hnodes] at hseq
  simp only [List.mem_cons, Prod.mk.injEq, List.not_mem_nil, or_false] at hseq
  omega

end Ns2.ScoreBoard1
