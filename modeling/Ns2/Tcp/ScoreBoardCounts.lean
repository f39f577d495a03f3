import Ns2.Tcp.ScoreBoardPass

/-! Runs of the scoreboard: its ranges stay contiguous, its counters are true and no assertion fails,
unless an update opens a board whose last block ends at the cumulative acknowledgement. -/

namespace Ns2.ScoreBoard1

open ScoreBoardNode1

theorem good_clear (b : ScoreBoard1) : Good (clearScoreBoard b) [] := good_nil rfl rfl rfl

theorem le_top (b : ScoreBoard1) (l : List ScoreBoardNode1) : b.fack_ ≤ top b l := by
  induction l with
  | nil => exact le_rfl
  | cons n l ih => exact ih.trans (le_max_right _ _)

theorem Tiles.le_top {b : ScoreBoard1} {lo hi : ℤ} {l : List ScoreBoardNode1} (h : Tiles lo hi l)
    (hl : l ≠ []) : hi ≤ top b l + 1 := by
  induction l generalizing lo with
  | nil => exact absurd rfl hl
  | cons n l ih =>
    have htop : top b (n :: l) = max n.getEnd (top b l) := rfl
    cases l with
    | nil =>
      have : n.getEnd + 1 = hi := h.2.2
      omega
    | cons m l =>
      have := ih h.2.2 (by simp)
      omega

/-- If an update opens the board, the last of its blocks ends behind the next packet. -/
def Opens (b : ScoreBoard1) : Op → Prop
  | .updateScoreBoard last_ack sacks _ =>
    (∀ n ∈ b.nodes, n.getEnd ≤ last_ack) →
      ∀ s, (sortSacks last_ack sacks).getLast? = some s → last_ack < 0 ∨ last_ack + 1 < s.2
  | _ => True

/-- The pass over a board with nodes. -/
theorem pass_spec {b : ScoreBoard1} {head : ScoreBoardNode1} {l : List ScoreBoardNode1}
    {sacks : List (ℤ × ℤ)} {thorough : Bool} {flag : ℕ} (dupack th : ℤ) (h : Good b (head :: l)) :
    ∃ b' f, traverse dupack th
        ((top { b with nxt_to_retrx_ := none } (head :: l) + 1 - head.seq_).toNat + 2)
        ⟨{ b with nxt_to_retrx_ := none }, sacks, thorough, flag⟩ [] (head :: l) = some (b', f) ∧
      Good b' b'.nodes := by
  obtain ⟨lo, hi, ht⟩ := h.tiles
  have hlo : head.seq_ = lo := ht.1
  have hle : lo ≤ hi := ht.le
  have htop : hi ≤ top { b with nxt_to_retrx_ := none } (head :: l) + 1 := ht.le_top (by simp)
  have hfack := le_top { b with nxt_to_retrx_ := none } (head :: l)
  have hstart : PassInv { b with nxt_to_retrx_ := none } [] (head :: l) lo lo hi :=
    ⟨rfl, ht, h.sack, h.lost, by simp, by simp, h.ids⟩
  apply traverse_spec dupack th hstart
  dsimp only at htop hfack ⊢
  omega

/-- The one node of a new board. -/
theorem new_board_good (b : ScoreBoard1) {last_ack fack : ℤ} (h : last_ack < fack) :
    Good (alloc { clearScoreBoard b with fack_ := fack } (last_ack + 1) fack).2
      [(alloc { clearScoreBoard b with fack_ := fack } (last_ack + 1) fack).1] := by
  refine ⟨⟨last_ack + 1, _, rfl, ?_, rfl⟩, rfl, rfl, fun a ha => ?_, List.nodup_singleton _,
    fun n hn => ?_⟩
  · simp only [alloc, getEnd, reduceCtorEq, if_false]
    omega
  · cases ha
  · obtain rfl := List.mem_singleton.mp hn
    exact Nat.lt_succ_self _

theorem updateScoreBoard_spec {b : ScoreBoard1} {last_ack dupack : ℤ} {sacks : List (ℤ × ℤ)}
    (h : Good b b.nodes) (hopens : Opens b (.updateScoreBoard last_ack sacks dupack)) :
    ∃ b' f, updateScoreBoard last_ack sacks dupack b = some (b', f) ∧ Good b' b'.nodes := by
  obtain ⟨b₁, c, f, h1, h2, h3, h4⟩ := @cleanRtxQueue_spec last_ack _ _ false 0 h
  rw [updateScoreBoard, h1, Option.bind_some]
  dsimp only
  cases hnodes : b₁.nodes with
  | nil =>
    simp only [List.isEmpty_nil, Bool.not_true, Bool.and_false, if_true, true_and, Bool.false_or]
    by_cases hret : sacks = [] ∨ sortSacks last_ack sacks = []
    · rw [if_pos hret]
      exact ⟨_, _, rfl, good_clear b₁⟩
    · rw [if_neg hret]
      push Not at hret
      obtain ⟨s, hs⟩ := Option.ne_none_iff_exists'.mp (mt List.getLast?_eq_none_iff.mp hret.2)
      have hbehind := hopens (h4.mp hnodes) s hs
      obtain ⟨left, right⟩ := s
      rw [hs]
      apply pass_spec
      apply new_board_good
      simp only [clearScoreBoard] at hbehind ⊢
      split_ifs <;> omega
  | cons head l =>
    simp only [List.isEmpty_cons, Bool.not_false, Bool.and_true, Bool.false_eq_true, if_false]
    rw [hnodes] at h2
    by_cases hret : c = false ∧ (sacks = [] ∨ sortSacks last_ack sacks = [])
    · rw [if_pos hret]
      exact ⟨_, _, rfl, hnodes.symm ▸ h2⟩
    · rw [if_neg hret, hnodes]
      apply pass_spec
      exact ⟨h2.tiles, h2.sack, h2.lost, h2.ptr, h2.ids⟩

theorem PassInv.push {b : ScoreBoard1} {done rest : List ScoreBoardNode1} {now : ScoreBoardNode1}
    {lo mid hi : ℤ} (h : PassInv b done (now :: rest) lo mid hi) (hf : now.flag_ ≠ .lost) :
    PassInv b (now :: done) rest lo (now.getEnd + 1) hi := by
  obtain ⟨h1, h2, h3⟩ := h.ahead
  refine ⟨tiles_last.mpr ⟨h1.symm ▸ h.behind, h1.trans_le h2, rfl⟩, h3, ?_, ?_, fun a ha => ?_, ?_, ?_⟩
  · rw [h.sack]
    simp only [packets_append, packets_cons]
    omega
  · rw [h.lost]
    simp only [packets_append, packets_cons]
    omega
  · obtain ⟨n, hn, he⟩ := h.ptr a ha
    exact ⟨n, List.mem_cons_of_mem _ hn, he⟩
  · intro n hn hfn
    rcases List.mem_cons.mp hn with rfl | hn
    · exact absurd hfn hf
    · exact h.some_lost n hn hfn
  · exact h.ids.perm List.perm_middle.symm

/-- `last_lost` says whether the last node is lost. -/
def LastLost (done : List ScoreBoardNode1) (last_lost : Bool) : Prop :=
  last_lost = true ↔ ∃ n, done.head? = some n ∧ n.flag_ = .lost

theorem mergeNode_head {done : List ScoreBoardNode1} {now : ScoreBoardNode1} :
    ∃ n, (mergeNode done now).head? = some n ∧ n.flag_ = now.flag_ := by
  cases done with
  | nil => exact ⟨now, rfl, rfl⟩
  | cons prev done =>
    rw [mergeNode]
    split_ifs with hm
    · exact ⟨_, rfl, hm.2.symm⟩
    · exact ⟨now, rfl, rfl⟩

/-- A node that is not sacked goes behind the others as a lost one. -/
theorem lossStep_eq {b : ScoreBoard1} {done rest : List ScoreBoardNode1} {now : ScoreBoardNode1}
    {last_lost : Bool} {lo mid hi : ℤ} (h : PassInv b done (now :: rest) lo mid hi)
    (hlast : LastLost done last_lost) (hs : now.flag_ ≠ .sacked) :
    ∃ b₁, b₁ = (if now.flag_ = .lost then b
        else { b with fack_out_ := b.fack_out_ + (now.getEnd - now.seq_ + 1) }) ∧
      b₁.nxt_to_retrx_ = b.nxt_to_retrx_ ∧ lossStep (done, last_lost, b) now =
        (mergeNode done (now.setFlag .lost), true, offer b₁ (now.setFlag .lost)) := by
  obtain ⟨b₁, hb₁⟩ : ∃ b₁ : ScoreBoard1, b₁ = if now.flag_ = .lost then b
    else { b with fack_out_ := b.fack_out_ + (now.getEnd - now.seq_ + 1) } := ⟨_, rfl⟩
  have hnxt : b₁.nxt_to_retrx_ = b.nxt_to_retrx_ := by
    rw [hb₁]
    split_ifs <;> rfl
  refine ⟨b₁, hb₁, hnxt, ?_⟩
  cases done with
  | nil => simp only [lossStep, if_neg hs, ← hb₁, mergeNode]
  | cons prev done =>
    cases last_lost with
    | true =>
      -- a node before is lost already, so that the pointer is not null
      obtain ⟨m, hm1, hm2⟩ := hlast.mp rfl
      obtain rfl := Option.some.inj hm1
      have hsome : offer b₁ (now.setFlag .lost) = b₁ := by
        obtain ⟨a, ha⟩ := Option.ne_none_iff_exists'.mp (h.some_lost prev (by simp) hm2)
        rw [offer, hnxt, ha, Option.some_or, ← ha, ← hnxt]
      have hmerge : (now.setFlag .lost).flag_ ≠ .retransmitted ∧
          (now.setFlag .lost).flag_ = prev.flag_ := ⟨by simp [setFlag], hm2.symm⟩
      simp only [lossStep, if_neg hs, ← hb₁, mergeNode, if_pos hmerge, hsome]
    | false =>
      have hne : ¬ ((now.setFlag .lost).flag_ ≠ .retransmitted ∧
          (now.setFlag .lost).flag_ = prev.flag_) := by
        rintro ⟨-, he⟩
        exact absurd (hlast.mpr ⟨prev, rfl, he.symm⟩) (by decide)
      simp only [lossStep, if_neg hs, ← hb₁, mergeNode, if_neg hne]

theorem lossStep_spec {b : ScoreBoard1} {done rest : List ScoreBoardNode1} {now : ScoreBoardNode1}
    {last_lost : Bool} {lo mid hi : ℤ} (h : PassInv b done (now :: rest) lo mid hi)
    (hlast : LastLost done last_lost) :
    ∃ done' last_lost' b' mid', lossStep (done, last_lost, b) now = (done', last_lost', b') ∧
      PassInv b' done' rest lo mid' hi ∧ LastLost done' last_lost' := by
  by_cases hs : now.flag_ = .sacked
  · refine ⟨now :: done, false, b, _, by simp only [lossStep, if_pos hs], h.push (by simp [hs]), ?_⟩
    simp [LastLost, hs]
  · obtain ⟨b₁, hb₁, hnxt, hstep⟩ := lossStep_eq h hlast hs
    have hlen : now.getLength = now.getEnd - now.seq_ + 1 := by
      rw [getLength, getEnd]
      split_ifs <;> omega
    have hr : Relabels b now rest (offer b₁ (now.setFlag .lost)) (now.setFlag .lost) rest := by
      apply setFlag_relabels (by decide)
      · rw [hb₁]
        split_ifs <;> rfl
      · rw [hb₁]
        split_ifs <;> rfl
      · simp only [offer, hb₁, hs, if_false, reduceCtorEq]
        split_ifs <;> rfl
      · simp only [offer, hb₁, hlen, if_true]
        split_ifs
        · rfl
        · dsimp only
          omega
    obtain ⟨-, hm⟩ := h.merge hr (by
      simp only [offer, setFlag, if_true]
      rw [hnxt])
    obtain ⟨n, hn1, hn2⟩ := @mergeNode_head done (now.setFlag .lost)
    exact ⟨_, true, _, _, hstep, hm, iff_of_true rfl ⟨n, hn1, hn2⟩⟩

theorem foldl_lossStep {l : List ScoreBoardNode1} {b : ScoreBoard1} {done : List ScoreBoardNode1}
    {last_lost : Bool} {lo mid hi : ℤ} (h : PassInv b done l lo mid hi)
    (hlast : LastLost done last_lost) :
    ∃ done' last_lost' b', l.foldl lossStep (done, last_lost, b) = (done', last_lost', b') ∧
      PassInv b' done' [] lo hi hi ∧ LastLost done' last_lost' := by
  induction l generalizing b done last_lost mid with
  | nil =>
    obtain rfl : mid = hi := h.ahead
    exact ⟨done, last_lost, b, rfl, h, hlast⟩
  | cons now l ih =>
    obtain ⟨done', last_lost', b', mid', h1, h2, h3⟩ := lossStep_spec h hlast
    rw [List.foldl_cons, h1]
    exact ih h2 h3

theorem Good.congr {b b' : ScoreBoard1} {l : List ScoreBoardNode1} (h : Good b l)
    (hs : b'.sack_out_ = b.sack_out_) (hl : b'.fack_out_ = b.fack_out_)
    (hn : b'.nxt_to_retrx_ = b.nxt_to_retrx_) (hf : b'.fresh = b.fresh) : Good b' l :=
  ⟨h.tiles, hs.trans h.sack, hl.trans h.lost, hn ▸ h.ptr, hf ▸ h.ids⟩

/-- The node that is appended is handled like those before it. -/
theorem PassInv.append_node {b : ScoreBoard1} {prev : ScoreBoardNode1} {done : List ScoreBoardNode1}
    {lo mid hi snd_nxt : ℤ} (h : PassInv b (prev :: done) [] lo mid hi)
    (hlt : prev.getEnd + 1 < snd_nxt) :
    PassInv (alloc b (prev.getEnd + 1) (snd_nxt - 1)).2 (prev :: done)
      [(alloc b (prev.getEnd + 1) (snd_nxt - 1)).1] lo mid snd_nxt := by
  obtain ⟨-, -, hmid⟩ := tiles_last.mp h.behind
  refine ⟨h.behind, ⟨hmid.symm, ?_, ?_⟩, ?_, ?_, h.ptr, h.some_lost, h.ids.insert rfl⟩
  · show mid ≤ snd_nxt - 1
    omega
  · show snd_nxt - 1 + 1 = snd_nxt
    omega
  · simpa [alloc] using h.sack
  · simpa [alloc] using h.lost

theorem markLoss_spec {b : ScoreBoard1} (h : Good b b.nodes) (snd_una snd_nxt : ℤ) :
    Good (markLoss snd_una snd_nxt b) (markLoss snd_una snd_nxt b).nodes := by
  obtain ⟨lo, hi, ht⟩ := h.tiles
  have hstart : PassInv { b with nxt_to_retrx_ := none } [] b.nodes lo lo hi :=
    ⟨rfl, ht, h.sack, h.lost, by simp, by simp, h.ids⟩
  have hlast : LastLost [] false := by simp [LastLost]
  obtain ⟨done, last_lost, b₁, h1, h2, h3⟩ := foldl_lossStep hstart hlast
  have hgood := h2.good
  rw [List.append_nil] at hgood
  simp only [markLoss, h1]
  cases done with
  | nil =>
    dsimp only
    split_ifs with hlt
    · refine ⟨⟨snd_una, snd_nxt, rfl, ?_, ?_⟩, ?_, ?_, ?_, ?_⟩
      · show snd_una ≤ snd_nxt - 1
        omega
      · show snd_nxt - 1 + 1 = snd_nxt
        omega
      · simpa [alloc] using hgood.sack
      · have := hgood.lost
        simp only [alloc, packets, getLength, List.reverse_nil, List.map_nil, List.sum_nil,
          List.map_cons, List.sum_cons, if_true, reduceCtorEq, if_false] at this ⊢
        omega
      · rintro a ⟨⟩
        exact ⟨_, List.mem_singleton_self _, rfl⟩
      · refine ⟨List.nodup_singleton _, fun n hn => ?_⟩
        obtain rfl := List.mem_singleton.mp hn
        exact Nat.lt_succ_self _
    · exact hgood.congr rfl rfl rfl rfl
  | cons prev done =>
    dsimp only
    split_ifs with hlt
    · obtain ⟨done', last_lost', b', mid', h4, h5, -⟩ := lossStep_spec (h2.append_node hlt) h3
      have hgood' := h5.good
      rw [List.append_nil] at hgood'
      simp only [h4]
      exact hgood'.congr rfl rfl rfl rfl
    · exact hgood.congr rfl rfl rfl rfl

/-- The pointer goes on to the next node that is lost. -/
theorem getNextRetran_spec {b : ScoreBoard1} (h : Good b b.nodes) :
    ∃ b' seq, getNextRetran b = some (b', seq) ∧ Good b' b'.nodes ∧ b'.nodes = b.nodes ∧
      (seq = -1 ∨ ∃ n ∈ b'.nodes, b'.nxt_to_retrx_ = some n.addr ∧ n.flag_ = .lost ∧ seq = n.seq_) := by
  rw [getNextRetran]
  cases hp : b.nxt_to_retrx_ with
  | none => exact ⟨b, -1, rfl, h, rfl, .inl rfl⟩
  | some a =>
    obtain ⟨n, hn, he⟩ := h.ptr a hp
    dsimp only
    split
    · next hnil =>
      rw [List.dropWhile_eq_nil_iff] at hnil
      exact absurd he (by simpa using hnil n hn)
    · next hcons =>
      split
      · next m hm =>
        have hmem : m ∈ b.nodes := (List.dropWhile_sublist _).subset (List.mem_of_find?_eq_some hm)
        have hlost : m.flag_ = .lost := by simpa using List.find?_some hm
        refine ⟨_, _, rfl, ⟨h.tiles, h.sack, h.lost, ?_, h.ids⟩, rfl, .inr ⟨m, hmem, rfl, hlost, rfl⟩⟩
        rintro a ⟨⟩
        exact ⟨m, hmem, rfl⟩
      · exact ⟨_, _, rfl, ⟨h.tiles, h.sack, h.lost, by rintro a ⟨⟩, h.ids⟩, rfl, .inl rfl⟩

theorem Good.relabel {b b' : ScoreBoard1} {l rest rest' : List ScoreBoardNode1}
    {now now' : ScoreBoardNode1} (h : Good b (l ++ now :: rest))
    (hr : Relabels b now rest b' now' rest') (hn : b'.nxt_to_retrx_ = some now.addr) :
    Good b' (l ++ now' :: rest') where
  tiles := by
    obtain ⟨lo, hi, ht⟩ := h.tiles
    obtain ⟨mid, h1, h2⟩ := tiles_append.mp ht
    exact ⟨lo, hi, tiles_append.mpr ⟨mid, h1, hr.tiles mid hi h2⟩⟩
  sack := by
    have := h.sack
    have := hr.sack
    simp only [packets_append] at *
    omega
  lost := by
    have := h.lost
    have := hr.lost
    simp only [packets_append] at *
    omega
  ptr := by
    intro a ha
    rw [hn] at ha
    obtain rfl := Option.some.inj ha
    exact ⟨now', by simp, hr.addr⟩
  ids := hr.ids l h.ids

/-- The first packet of a lost node is retransmitted; its node keeps this packet only. -/
theorem retransmit_relabels {b : ScoreBoard1} {n : ScoreBoardNode1} {rest : List ScoreBoardNode1}
    (hlost : n.flag_ = .lost) (hone : n.nxt_ = n.seq_) (b' : ScoreBoard1) (snd_nxt id : ℤ)
    (hfack : b'.fack_ = b.fack_) (hfresh : b'.fresh = b.fresh) (hs : b'.sack_out_ = b.sack_out_)
    (hl : b'.fack_out_ = b.fack_out_ - 1) :
    Relabels b n rest b' { n with flag_ := .retransmitted, nxt_ := snd_nxt, retran_ := id } rest where
  seq := rfl
  addr := rfl
  tiles := by
    intro lo hi h
    simp only [Tiles, getEnd, hlost, hone, reduceCtorEq, if_false, if_true] at h ⊢
    exact h
  sack := by simp [hs, hlost]
  lost := by
    simp only [packets_cons, hlost, hl, getLength, hone, reduceCtorEq, if_false, if_true]
    omega
  fack := hfack
  ids := by
    intro done h
    rw [hfresh]
    exact h.congr (by simp)

/-- No node before has the same address. -/
theorem Good.addr_ne {b : ScoreBoard1} {l rest : List ScoreBoardNode1} {n : ScoreBoardNode1}
    (h : Good b (l ++ n :: rest)) : ∀ m ∈ l, m.addr ≠ n.addr := by
  intro m hm he
  have hnd := h.ids.nodup
  rw [List.map_append, List.map_cons, List.nodup_append] at hnd
  exact hnd.2.2 m.addr (List.mem_map_of_mem hm) n.addr (by simp) he

theorem Good.span {b : ScoreBoard1} {l rest : List ScoreBoardNode1} {n : ScoreBoardNode1}
    (h : Good b (l ++ n :: rest)) :
    (l ++ n :: rest).span (fun m => decide (m.addr ≠ n.addr)) = (l, n :: rest) := by
  have hl := h.addr_ne
  rw [List.span_eq_takeWhile_dropWhile, List.takeWhile_append_of_pos (by simpa using hl),
    List.dropWhile_append_of_pos (by simpa using hl)]
  simp

theorem markRetran_spec {b : ScoreBoard1} {n : ScoreBoardNode1} (h : Good b b.nodes)
    (hn : n ∈ b.nodes) (hp : b.nxt_to_retrx_ = some n.addr) (hlost : n.flag_ = .lost) (snd_nxt : ℤ) :
    ∃ b', markRetran n.seq_ snd_nxt b = some b' ∧ Good b' b'.nodes := by
  obtain ⟨l, rest, hnodes⟩ := List.append_of_mem hn
  rw [hnodes] at h
  have hspan : b.nodes.span (fun m => decide (m.addr ≠ n.addr)) = (l, n :: rest) := by
    rw [hnodes]
    exact h.span
  obtain ⟨lo, hi, ht⟩ := h.tiles
  have hne : n.seq_ ≤ n.getEnd := ht.le_end (by simp)
  rw [getEnd, hlost, if_neg (by decide)] at hne
  have hpos : 1 ≤ b.fack_out_ := by
    obtain ⟨mid, h1, h2⟩ := tiles_append.mp ht
    have := packets_nonneg h1 .lost
    have := packets_nonneg h2.2.2 .lost
    have hl := h.lost
    simp only [packets_append, packets_cons, hlost, if_true, getLength, reduceCtorEq, if_false] at hl
    omega
  have hinside : n.inside n.seq_ = true ∧ 0 ≤ b.fack_out_ - 1 := by
    simp only [inside, hlost, reduceCtorEq, if_false, le_refl, decide_true, Bool.true_and,
      decide_eq_true_eq]
    exact ⟨hne, by omega⟩
  rw [markRetran, hp, Option.bind_some, hspan]
  simp only [if_pos hinside]
  by_cases hgt : n.nxt_ > n.seq_
  · simp only [if_pos hgt]
    refine ⟨_, rfl, ?_⟩
    refine h.relabel ?_ ?_
    · apply (split_relabels (by simp [hlost]) (by omega : n.seq_ < n.seq_ + 1) (by omega)).trans
      have hlost' : (split b n (n.seq_ + 1)).1.flag_ = .lost := hlost
      refine retransmit_relabels hlost' ?_ _ _ _ ?_ ?_ ?_ ?_
      · show n.seq_ + 1 - 1 = n.seq_
        omega
      all_goals rfl
    · exact hp
  · simp only [if_neg hgt]
    refine ⟨_, rfl, ?_⟩
    refine h.relabel ?_ ?_
    · exact retransmit_relabels hlost (by omega) _ _ _ rfl rfl rfl rfl
    · exact hp

/-! ### Runs -/

/-- The ranges are contiguous, in order and not empty, and the counters are true. -/
def Sound (b : ScoreBoard1) : Prop :=
  (∃ lo hi, Tiles lo hi b.nodes) ∧ b.sack_out_ = packets .sacked b.nodes ∧
    b.fack_out_ = packets .lost b.nodes

theorem step_good {b : ScoreBoard1} {op : Op} (h : Good b b.nodes) (hopens : Opens b op) :
    ∃ b' o, step b op = some (b', o) ∧ Good b' b'.nodes := by
  cases op with
  | updateScoreBoard last_ack sacks dupack =>
    obtain ⟨b', f, h1, h2⟩ := updateScoreBoard_spec h hopens
    exact ⟨b', f, by rw [step, h1]; rfl, h2⟩
  | retran snd_nxt =>
    obtain ⟨b₁, seq, h1, h2, -, h3⟩ := getNextRetran_spec h
    rw [step, h1, Option.bind_some]
    dsimp only
    split_ifs with hseq
    · exact ⟨b₁, -1, rfl, h2⟩
    · obtain ⟨n, hn, hp, hlost, rfl⟩ := h3.resolve_left hseq
      obtain ⟨b', h4, h5⟩ := markRetran_spec h2 hn hp hlost snd_nxt
      exact ⟨b', n.seq_, by rw [h4]; rfl, h5⟩
  | markLoss snd_una snd_nxt => exact ⟨_, 0, rfl, markLoss_spec h snd_una snd_nxt⟩
  | clearScoreBoard => exact ⟨_, 0, rfl, good_clear b⟩

/-- An empty node is not split. -/
theorem lossNode_empty {dupack th : ℤ} {p : Pass} {now : ScoreBoardNode1}
    (hflag : now.flag_ ≠ .retransmitted) (hempty : now.getEnd < now.seq_) :
    (lossNode dupack th p now []).2.1.seq_ = now.seq_ ∧
      (lossNode dupack th p now []).2.1.getEnd = now.getEnd ∧
      (lossNode dupack th p now []).2.2 = [] := by
  cases hf : now.flag_ with
  | retransmitted => exact absurd hf hflag
  | sacked => simp only [lossNode, hf, and_self]
  | lost => simp only [lossNode, hf, and_self]
  | inflight =>
    by_cases hle : now.seq_ ≤ th
    · simp only [lossNode, hf, if_pos hle, if_neg (by omega : ¬ th < now.getEnd), and_true]
      exact ⟨rfl, setFlag_end now (by decide)⟩
    · simp only [lossNode, hf, if_neg hle, and_self]

theorem processNode_empty {dupack th : ℤ} {p : Pass} {now : ScoreBoardNode1}
    (hflag : now.flag_ = .inflight) (hempty : now.getEnd < now.seq_) :
    (processNode dupack th p now []).2.1.seq_ = now.seq_ ∧
      (processNode dupack th p now []).2.1.getEnd = now.getEnd ∧
      (processNode dupack th p now []).2.2 = [] := by
  obtain ⟨q, hq⟩ : ∃ q : Pass, q = { p with
      sacks := p.sacks.dropWhile fun s => decide (s.2 ≤ now.seq_) } := ⟨_, rfl⟩
  have hsack : (sackNode q now []).2.1.seq_ = now.seq_ ∧
      (sackNode q now []).2.1.getEnd = now.getEnd ∧ (sackNode q now []).2.2 = [] ∧
      (sackNode q now []).2.1.flag_ ≠ .retransmitted := by
    cases hs : q.sacks with
    | nil => simp [sackNode, hs, hflag]
    | cons s sacks =>
      obtain ⟨left, right⟩ := s
      have hlt : now.seq_ < right := by
        have := List.head?_dropWhile_not (fun s : ℤ × ℤ => decide (s.2 ≤ now.seq_)) p.sacks
        rw [hq] at hs
        dsimp only at hs
        rw [hs] at this
        simpa using this
      by_cases hle : left ≤ now.getEnd
      · simp only [sackNode, hs, if_pos hle, if_neg (by omega : ¬ left > now.seq_), label,
          if_neg (by omega : ¬ right ≤ now.getEnd), true_and]
        exact ⟨rfl, setFlag_end now (by decide), by simp [setFlag]⟩
      · simp [sackNode, hs, hle, hflag]
  obtain ⟨h1, h2, h3, h4⟩ := hsack
  simp only [processNode, hflag, reduceCtorEq, if_false, ← hq]
  split_ifs
  · rw [h3]
    obtain ⟨h5, h6, h7⟩ := @lossNode_empty dupack th (sackNode q now []).1 _ h4 (by omega)
    exact ⟨h5.trans h1, h6.trans h2, h7⟩
  · exact ⟨h1, h2, h3⟩

/-- A new board with an empty node keeps it. -/
theorem traverse_empty {dupack th : ℤ} {fuel : ℕ} {p : Pass} {now : ScoreBoardNode1}
    (hflag : now.flag_ = .inflight) (hempty : now.getEnd < now.seq_)
    (hfack : p.board.fack_ ≤ now.getEnd) {b : ScoreBoard1} {f : ℕ}
    (h : traverse dupack th (fuel + 2) p [] [now] = some (b, f)) :
    ∃ n, b.nodes = [n] ∧ n.getEnd < n.seq_ := by
  rw [traverse] at h
  split_ifs at h
  · obtain ⟨rfl, -⟩ := Prod.mk.inj (Option.some.inj h)
    exact ⟨now, rfl, hempty⟩
  · obtain ⟨⟨p', now', rest'⟩, he⟩ : ∃ r, processNode dupack th p now [] = r := ⟨_, rfl⟩
    have h1 := @processNode_empty dupack th p now hflag hempty
    have h2 := (processNode_spec dupack th p now []).1.fack
    rw [he] at h h1 h2
    obtain ⟨hseq, hend, hrest⟩ := h1
    dsimp only at h h2 hseq hend hrest
    have hlast : ¬ now'.getEnd < p'.board.fack_ := by omega
    rw [hrest, mergeNode, extend, if_neg hlast, traverse] at h
    obtain ⟨rfl, -⟩ := Prod.mk.inj (Option.some.inj h)
    exact ⟨now', rfl, by omega⟩

theorem step_breaks {b b' : ScoreBoard1} {op : Op} {o : ℤ} (h : Good b b.nodes)
    (hopens : ¬ Opens b op) (he : step b op = some (b', o)) : ¬ Sound b' := by
  cases op with
  | retran snd_nxt => exact absurd trivial hopens
  | markLoss snd_una snd_nxt => exact absurd trivial hopens
  | clearScoreBoard => exact absurd trivial hopens
  | updateScoreBoard last_ack sacks dupack =>
    rw [Opens] at hopens
    push Not at hopens
    obtain ⟨hall, ⟨left, right⟩, hs, hack, hright⟩ := hopens
    obtain ⟨b₁, c, f, h1, h2, h3, h4⟩ := @cleanRtxQueue_spec last_ack _ _ false 0 h
    have hnodes := h4.mpr hall
    have hsorted : sortSacks last_ack sacks ≠ [] := by
      intro hnil
      rw [hnil] at hs
      cases hs
    have hsacks : sacks ≠ [] := by
      rintro rfl
      exact hsorted rfl
    obtain ⟨⟨u, f'⟩, hu, hub⟩ := Option.map_eq_some_iff.mp he
    obtain rfl : u = b' := congrArg Prod.fst hub
    rw [updateScoreBoard, h1, Option.bind_some] at hu
    simp only [hnodes, List.isEmpty_nil, Bool.not_true, Bool.and_false, if_true, true_and,
      hsacks, hsorted, or_self, if_false, hs] at hu
    obtain ⟨n, hn, hempty⟩ := traverse_empty rfl (by
      simp only [alloc, getEnd, clearScoreBoard, reduceCtorEq, if_false] at hright ⊢
      split_ifs <;> omega) le_rfl hu
    rintro ⟨⟨lo, hi, ht⟩, -⟩
    rw [hn] at ht
    have := ht.le_end (List.mem_singleton_self n)
    omega

/-- A run keeps the ranges contiguous and the counters true, and fails no assertion, exactly when
every update that opens the board has a last block that ends behind the next packet. -/
theorem scoreboard_counts (ops : List Op) :
    Machine.Always step Sound new ops ↔ Machine.Admits step Opens new ops := by
  apply @Machine.always_iff _ _ _ step Opens (fun b => Good b b.nodes) Sound
  · exact fun b h => ⟨h.tiles, h.sack, h.lost⟩
  · exact fun b op h hop => step_good h hop
  · exact fun b op b' o h hop he => step_breaks h hop he
  · exact good_nil rfl rfl rfl

def lastAcks (ops : List Op) : List ℤ :=
  ops.filterMap fun op => match op with
    | .updateScoreBoard last_ack _ _ => some last_ack
    | _ => none

/-- The acknowledgement and the blocks are within the data sent. -/
def Within (snd_nxt : ℤ) : Op → Prop
  | .updateScoreBoard last_ack sacks _ =>
    last_ack < snd_nxt ∧ ∀ s ∈ sacks, 0 ≤ s.1 ∧ s.1 < s.2 ∧ s.2 ≤ snd_nxt
  | _ => True

/-- A D-SACK for the last packet acknowledged opens the board with an empty node. -/
theorem dsack_opens : ¬ ∀ snd_nxt ops, (lastAcks ops).Pairwise (· ≤ ·) →
    (∀ op ∈ ops, Within snd_nxt op) → Machine.Always step Sound new ops := by
  intro h
  obtain ⟨b, os, hrun, ⟨⟨lo, hi, ht⟩, -⟩⟩ :=
    (h 10 [.updateScoreBoard 5 [(5, 6)] 3] (by decide) (by simp [Within])).run
  have hnodes : (Machine.run step new [.updateScoreBoard 5 [(5, 6)] 3]).map
      (fun r => r.1.nodes.map fun n => (n.seq_, n.getEnd)) = some [(6, 5)] := by decide
  rw [hrun] at hnodes
  have hmap := Option.some.inj hnodes
  obtain ⟨n, l, hn, hseq, -⟩ := List.map_eq_cons_iff.mp hmap
  rw [hn] at ht
  have := ht.le_end List.mem_cons_self
  have h1 := congrArg Prod.fst hseq
  have h2 := congrArg Prod.snd hseq
  dsimp only at h1 h2
  omega

end Ns2.ScoreBoard1
