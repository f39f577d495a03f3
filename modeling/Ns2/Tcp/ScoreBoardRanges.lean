import Ns2.Tcp.ScoreBoard1

/-! The ranges of the scoreboard: they cover an interval without a gap, and what splitting, labelling
and merging does to them and to the counters. -/

namespace Ns2.ScoreBoard1

open ScoreBoardNode1

/-- The nodes are the non-empty parts of `[lo, hi)`, in order. -/
def Tiles : ℤ → ℤ → List ScoreBoardNode1 → Prop
  | lo, hi, [] => lo = hi
  | lo, hi, n :: nodes => n.seq_ = lo ∧ lo ≤ n.getEnd ∧ Tiles (n.getEnd + 1) hi nodes

/-- The packets in the nodes with a flag. -/
def packets (flag : SkbFlag) (nodes : List ScoreBoardNode1) : ℤ :=
  (nodes.map fun n => if n.flag_ = flag then n.getLength else 0).sum

theorem tiles_append {lo hi : ℤ} {l m : List ScoreBoardNode1} :
    Tiles lo hi (l ++ m) ↔ ∃ mid, Tiles lo mid l ∧ Tiles mid hi m := by
  induction l generalizing lo with
  | nil =>
    constructor
    · exact fun h => ⟨lo, rfl, h⟩
    · rintro ⟨mid, rfl, h⟩
      exact h
  | cons n l ih =>
    simp only [List.cons_append, Tiles, ih]
    constructor
    · rintro ⟨h1, h2, mid, h3, h4⟩
      exact ⟨mid, ⟨h1, h2, h3⟩, h4⟩
    · rintro ⟨mid, ⟨h1, h2, h3⟩, h4⟩
      exact ⟨h1, h2, mid, h3, h4⟩

theorem Tiles.le {lo hi : ℤ} {l : List ScoreBoardNode1} (h : Tiles lo hi l) : lo ≤ hi := by
  induction l generalizing lo with
  | nil => exact le_of_eq h
  | cons n l ih =>
    have := ih h.2.2
    have := h.2.1
    omega

theorem Tiles.le_end {lo hi : ℤ} {l : List ScoreBoardNode1} (h : Tiles lo hi l)
    {n : ScoreBoardNode1} (hn : n ∈ l) : n.seq_ ≤ n.getEnd := by
  induction l generalizing lo with
  | nil => cases hn
  | cons m l ih =>
    rcases List.mem_cons.mp hn with rfl | hn
    · exact h.1.trans_le h.2.1
    · exact ih h.2.2 hn

@[simp] theorem packets_nil (f : SkbFlag) : packets f [] = 0 := rfl

@[simp] theorem packets_cons (f : SkbFlag) (n : ScoreBoardNode1) (l : List ScoreBoardNode1) :
    packets f (n :: l) = (if n.flag_ = f then n.getLength else 0) + packets f l := rfl

@[simp] theorem packets_append (f : SkbFlag) (l m : List ScoreBoardNode1) :
    packets f (l ++ m) = packets f l + packets f m := by
  simp [packets]

@[simp] theorem packets_reverse (f : SkbFlag) (l : List ScoreBoardNode1) :
    packets f l.reverse = packets f l := by
  simp [packets, List.sum_reverse]

theorem getLength_pos {n : ScoreBoardNode1} (h : n.seq_ ≤ n.getEnd) : 0 < n.getLength := by
  rw [getEnd] at h
  rw [getLength]
  split_ifs at h ⊢ <;> omega

theorem packets_nonneg {lo hi : ℤ} {l : List ScoreBoardNode1} (h : Tiles lo hi l) (f : SkbFlag) :
    0 ≤ packets f l := by
  induction l generalizing lo with
  | nil => exact le_rfl
  | cons n l ih =>
    have hpos := getLength_pos (h.1.trans_le h.2.1)
    have := ih h.2.2
    rw [packets_cons]
    split_ifs <;> omega

/-- Addresses are used once, and later ones are free. -/
structure Ids (fresh : ℕ) (nodes : List ScoreBoardNode1) : Prop where
  nodup : (nodes.map addr).Nodup
  lt : ∀ n ∈ nodes, n.addr < fresh

theorem Ids.perm {fresh : ℕ} {l m : List ScoreBoardNode1} (h : Ids fresh l) (hp : m.Perm l) :
    Ids fresh m :=
  ⟨(hp.map addr).nodup_iff.mpr h.nodup, fun n hn => h.lt n (hp.mem_iff.mp hn)⟩

theorem Ids.insert {fresh : ℕ} {l m : List ScoreBoardNode1} (h : Ids fresh (l ++ m))
    {n : ScoreBoardNode1} (hn : n.addr = fresh) : Ids (fresh + 1) (l ++ n :: m) := by
  have hp : (l ++ n :: m).Perm (n :: (l ++ m)) := List.perm_middle
  refine Ids.perm ⟨?_, ?_⟩ hp
  · rw [List.map_cons, List.nodup_cons]
    refine ⟨fun hmem => ?_, h.nodup⟩
    obtain ⟨k, hk, he⟩ := List.mem_map.mp hmem
    have := h.lt k hk
    omega
  · intro k hk
    rcases List.mem_cons.mp hk with rfl | hk
    · omega
    · have := h.lt k hk
      omega

theorem Ids.congr {fresh : ℕ} {l m : List ScoreBoardNode1} (h : Ids fresh l)
    (he : m.map addr = l.map addr) : Ids fresh m := by
  refine ⟨he ▸ h.nodup, fun n hn => ?_⟩
  have hmem : n.addr ∈ l.map addr := he ▸ List.mem_map_of_mem hn
  obtain ⟨k, hk, hkn⟩ := List.mem_map.mp hmem
  exact hkn ▸ h.lt k hk

theorem Ids.sublist {fresh : ℕ} {l m : List ScoreBoardNode1} (h : Ids fresh l) (hs : m.Sublist l) :
    Ids fresh m :=
  ⟨h.nodup.sublist (hs.map addr), fun n hn => h.lt n (hs.subset hn)⟩

/-- What may become of a node and those behind it: the same packets, counted as they are labelled. -/
structure Relabels (b : ScoreBoard1) (now : ScoreBoardNode1) (rest : List ScoreBoardNode1)
    (b' : ScoreBoard1) (now' : ScoreBoardNode1) (rest' : List ScoreBoardNode1) : Prop where
  seq : now'.seq_ = now.seq_
  addr : now'.addr = now.addr
  tiles : ∀ lo hi, Tiles lo hi (now :: rest) → Tiles lo hi (now' :: rest')
  sack : b'.sack_out_ + packets .sacked (now :: rest) =
    b.sack_out_ + packets .sacked (now' :: rest')
  lost : b'.fack_out_ + packets .lost (now :: rest) = b.fack_out_ + packets .lost (now' :: rest')
  fack : b'.fack_ = b.fack_
  ids : ∀ done, Ids b.fresh (done ++ now :: rest) → Ids b'.fresh (done ++ now' :: rest')

theorem Relabels.refl (b : ScoreBoard1) (now : ScoreBoardNode1) (rest : List ScoreBoardNode1) :
    Relabels b now rest b now rest :=
  ⟨rfl, rfl, fun _ _ h => h, rfl, rfl, rfl, fun _ h => h⟩

theorem Relabels.trans {b b' b'' : ScoreBoard1} {now now' now'' : ScoreBoardNode1}
    {rest rest' rest'' : List ScoreBoardNode1} (h : Relabels b now rest b' now' rest')
    (h' : Relabels b' now' rest' b'' now'' rest'') : Relabels b now rest b'' now'' rest'' where
  seq := h'.seq.trans h.seq
  addr := h'.addr.trans h.addr
  tiles := fun lo hi ht => h'.tiles lo hi (h.tiles lo hi ht)
  sack := by
    have := h.sack
    have := h'.sack
    omega
  lost := by
    have := h.lost
    have := h'.lost
    omega
  fack := h'.fack.trans h.fack
  ids := fun done hd => h'.ids done (h.ids done hd)

theorem split_relabels {b : ScoreBoard1} {now : ScoreBoardNode1} {rest : List ScoreBoardNode1}
    {seq : ℤ} (hflag : now.flag_ ≠ .retransmitted) (hlt : now.seq_ < seq) (hle : seq ≤ now.nxt_) :
    Relabels b now rest (split b now seq).2.2 (split b now seq).1 ((split b now seq).2.1 :: rest) where
  seq := rfl
  addr := rfl
  tiles := by
    intro lo hi h
    simp only [Tiles, split, getEnd, hflag, if_false] at h ⊢
    refine ⟨h.1, by omega, by omega, by omega, h.2.2⟩
  sack := by
    simp only [split, packets_cons, getLength, hflag, if_false]
    split_ifs <;> omega
  lost := by
    simp only [split, packets_cons, getLength, hflag, if_false]
    split_ifs <;> omega
  fack := rfl
  ids := by
    intro done h
    have h' : Ids b.fresh ((done ++ [(split b now seq).1]) ++ rest) := h.congr (by simp [split])
    have hins := h'.insert (n := (split b now seq).2.1) rfl
    show Ids (b.fresh + 1) _
    simpa using hins

theorem setFlag_end (n : ScoreBoardNode1) {f : SkbFlag} (hf : f ≠ .retransmitted) :
    (n.setFlag f).getEnd = n.getEnd := by
  simp [setFlag, getEnd, hf]

theorem setFlag_length (n : ScoreBoardNode1) {f : SkbFlag} (hf : f ≠ .retransmitted) :
    (n.setFlag f).getLength = n.getLength := by
  simp only [setFlag, getLength, hf, if_false]
  split_ifs <;> omega

theorem Tiles.setFlag {lo hi : ℤ} {n : ScoreBoardNode1} {l : List ScoreBoardNode1} {f : SkbFlag}
    (h : Tiles lo hi (n :: l)) (hf : f ≠ .retransmitted) : Tiles lo hi (n.setFlag f :: l) := by
  rw [Tiles, setFlag_end n hf]
  exact h

/-- A node gets another flag, with its packets moved between the counters. -/
theorem setFlag_relabels {b b' : ScoreBoard1} {now : ScoreBoardNode1} {rest : List ScoreBoardNode1}
    {f : SkbFlag} (hf : f ≠ .retransmitted) (hfack : b'.fack_ = b.fack_) (hfresh : b'.fresh = b.fresh)
    (hsack : b'.sack_out_ + (if now.flag_ = .sacked then now.getLength else 0) =
      b.sack_out_ + if f = .sacked then now.getLength else 0)
    (hlost : b'.fack_out_ + (if now.flag_ = .lost then now.getLength else 0) =
      b.fack_out_ + if f = .lost then now.getLength else 0) :
    Relabels b now rest b' (now.setFlag f) rest where
  seq := rfl
  addr := rfl
  tiles := fun _ _ h => h.setFlag hf
  sack := by
    rw [packets_cons, packets_cons, setFlag_length now hf]
    show _ = b.sack_out_ + ((if f = .sacked then _ else 0) + _)
    omega
  lost := by
    rw [packets_cons, packets_cons, setFlag_length now hf]
    show _ = b.fack_out_ + ((if f = .lost then _ else 0) + _)
    omega
  fack := hfack
  ids := by
    intro done h
    rw [hfresh]
    exact h.congr (by simp [setFlag])

theorem label_relabels {p : Pass} {now : ScoreBoardNode1} {rest : List ScoreBoardNode1} {right : ℤ}
    (hflag : now.flag_ ≠ .sacked) (hright : now.seq_ < right) :
    Relabels p.board now rest (label p now rest right).1.board (label p now rest right).2.1
      (label p now rest right).2.2 := by
  by_cases hle : right ≤ now.getEnd
  · -- the part behind the block is split off
    have hretran : now.flag_ ≠ .retransmitted := by
      intro hr
      rw [getEnd, if_pos hr] at hle
      omega
    have hnxt : right ≤ now.nxt_ := by rwa [getEnd, if_neg hretran] at hle
    apply (split_relabels hretran hright hnxt).trans
    simp only [label, if_pos hle]
    cases hf : now.flag_ with
    | sacked => exact absurd hf hflag
    | retransmitted => exact absurd hf hretran
    | inflight =>
      simp only [split, hf]
      exact setFlag_relabels (by decide) rfl rfl (by simp) (by simp)
    | lost =>
      simp only [split, hf]
      exact setFlag_relabels (by decide) rfl rfl (by simp) (by simp)
  · simp only [label, if_neg hle]
    cases hf : now.flag_ with
    | sacked => exact absurd hf hflag
    | retransmitted => exact setFlag_relabels (by decide) rfl rfl (by simp [hf]) (by simp [hf])
    | inflight => exact setFlag_relabels (by decide) rfl rfl (by simp [hf]) (by simp [hf])
    | lost => exact setFlag_relabels (by decide) rfl rfl (by simp [hf]) (by simp [hf])

theorem label_nxt (p : Pass) (now : ScoreBoardNode1) (rest : List ScoreBoardNode1) (right : ℤ) :
    (label p now rest right).1.board.nxt_to_retrx_ = p.board.nxt_to_retrx_ := by
  simp only [label, split]
  split_ifs <;> cases hf : now.flag_ <;> simp only

theorem retransmitted_end {now : ScoreBoardNode1} {k : ℤ} (h : now.seq_ < k) (hk : k ≤ now.getEnd) :
    now.flag_ ≠ .retransmitted ∧ k ≤ now.nxt_ := by
  rw [getEnd] at hk
  split_ifs at hk with hr
  · omega
  · exact ⟨hr, hk⟩

/-- The node after the block of the pass: unless the block ends before or begins behind it, it is
labelled. -/
theorem sackNode_spec {p : Pass} {now : ScoreBoardNode1} {rest : List ScoreBoardNode1}
    (hflag : now.flag_ ≠ .sacked) (hright : ∀ s, p.sacks.head? = some s → now.seq_ < s.2) :
    Relabels p.board now rest (sackNode p now rest).1.board (sackNode p now rest).2.1
      (sackNode p now rest).2.2 ∧
    (sackNode p now rest).1.board.nxt_to_retrx_ = p.board.nxt_to_retrx_ ∧
    (beyond (sackNode p now rest).1.sacks (sackNode p now rest).2.1 = false →
      (sackNode p now rest).2.1.flag_ = .sacked) := by
  unfold sackNode
  split
  · next hs =>
    refine ⟨.refl _ _ _, rfl, fun hb => ?_⟩
    rw [hs] at hb
    cases hb
  · next left right sacks hs =>
    have hlt : now.seq_ < right := hright (left, right) (by rw [hs]; rfl)
    split_ifs with hle hgt
    · obtain ⟨hr, hnxt⟩ := retransmitted_end hgt hle
      refine ⟨split_relabels hr hgt hnxt, rfl, fun hb => ?_⟩
      simp [beyond, hs, split, getEnd, hr] at hb
    · exact ⟨label_relabels hflag hlt, label_nxt p now rest right, fun _ => rfl⟩
    · refine ⟨.refl _ _ _, rfl, fun hb => ?_⟩
      simp only [beyond, hs, decide_eq_false_iff_not] at hb
      omega

/-- The node becomes lost, and the next one to be retransmitted if there is none yet. -/
theorem lossNode_spec (dupack th : ℤ) (p : Pass) (now : ScoreBoardNode1)
    (rest : List ScoreBoardNode1) :
    Relabels p.board now rest (lossNode dupack th p now rest).1.board
      (lossNode dupack th p now rest).2.1 (lossNode dupack th p now rest).2.2 ∧
    (lossNode dupack th p now rest).1.board.nxt_to_retrx_ =
      if (lossNode dupack th p now rest).2.1.flag_ = .lost then
        p.board.nxt_to_retrx_.or (some now.addr)
      else p.board.nxt_to_retrx_ := by
  cases hf : now.flag_ with
  | sacked =>
    have he : lossNode dupack th p now rest = (p, now, rest) := by simp only [lossNode, hf]
    rw [he]
    exact ⟨.refl _ _ _, by simp only [hf, reduceCtorEq, if_false]⟩
  | lost =>
    have he : lossNode dupack th p now rest = ({ p with board := offer p.board now }, now, rest) := by
      simp only [lossNode, hf]
    rw [he]
    exact ⟨⟨rfl, rfl, fun _ _ h => h, rfl, rfl, rfl, fun _ h => h⟩, by simp [offer, hf]⟩
  | retransmitted =>
    by_cases hc : now.nxt_ ≤ p.board.fack_ ∨ now.retran_ + dupack + 1 < p.board.acked_rtx_id_
    · simp only [lossNode, hf, if_pos hc]
      refine ⟨setFlag_relabels (by decide) rfl rfl ?_ ?_, rfl⟩
      · simp [offer, hf]
      · simp [offer, hf, getLength]
    · have he : lossNode dupack th p now rest = (p, now, rest) := by
        simp only [lossNode, hf, if_neg hc]
      rw [he]
      exact ⟨.refl _ _ _, by simp only [hf, reduceCtorEq, if_false]⟩
  | inflight =>
    by_cases hle : now.seq_ ≤ th
    · by_cases hlt : th < now.getEnd
      · -- only the first part is lost
        have hgt : now.seq_ < th + 1 := by omega
        obtain ⟨hr, hnxt⟩ := retransmitted_end hgt (by omega)
        simp only [lossNode, hf, if_pos hle, if_pos hlt]
        constructor
        · apply (split_relabels hr hgt hnxt).trans
          refine @setFlag_relabels _ _ _ _ .lost (by decide) ?_ ?_ ?_ ?_
          · rfl
          · rfl
          · simp [offer, split, hf]
          · simp [offer, split, hf, setFlag, getLength]
        · rfl
      · simp only [lossNode, hf, if_pos hle, if_neg hlt]
        refine ⟨setFlag_relabels (by decide) rfl rfl ?_ ?_, rfl⟩
        · simp [offer, hf]
        · simp [offer, hf, setFlag, getLength]
    · have he : lossNode dupack th p now rest = (p, now, rest) := by
        simp only [lossNode, hf, if_neg hle]
      rw [he]
      exact ⟨.refl _ _ _, by simp only [hf, reduceCtorEq, if_false]⟩

theorem processNode_spec (dupack th : ℤ) (p : Pass) (now : ScoreBoardNode1)
    (rest : List ScoreBoardNode1) :
    Relabels p.board now rest (processNode dupack th p now rest).1.board
      (processNode dupack th p now rest).2.1 (processNode dupack th p now rest).2.2 ∧
    (processNode dupack th p now rest).1.board.nxt_to_retrx_ =
      if (processNode dupack th p now rest).2.1.flag_ = .lost then
        p.board.nxt_to_retrx_.or (some now.addr)
      else p.board.nxt_to_retrx_ := by
  unfold processNode
  by_cases hf : now.flag_ = .sacked
  · rw [if_pos hf]
    exact ⟨.refl _ _ _, by simp only [hf, reduceCtorEq, if_false]⟩
  · rw [if_neg hf]
    obtain ⟨q, hq⟩ : ∃ q : Pass, q = { p with
        sacks := p.sacks.dropWhile fun s => decide (s.2 ≤ now.seq_) } := ⟨_, rfl⟩
    have hright : ∀ s, q.sacks.head? = some s → now.seq_ < s.2 := by
      intro s hs
      rw [hq] at hs
      have := List.head?_dropWhile_not (fun s : ℤ × ℤ => decide (s.2 ≤ now.seq_)) p.sacks
      rw [hs] at this
      simpa using this
    have hboard : p.board = q.board := by rw [hq]
    obtain ⟨h1, h2, h3⟩ := @sackNode_spec q now rest hf hright
    rw [← hq, hboard]
    dsimp only
    by_cases hb : beyond (sackNode q now rest).1.sacks (sackNode q now rest).2.1 = true
    · simp only [if_pos hb]
      obtain ⟨h4, h5⟩ := lossNode_spec dupack th (sackNode q now rest).1 (sackNode q now rest).2.1
        (sackNode q now rest).2.2
      rw [h1.addr, h2] at h5
      exact ⟨h1.trans h4, h5⟩
    · simp only [if_neg hb]
      refine ⟨h1, ?_⟩
      simp only [h3 (by simpa using hb), reduceCtorEq, if_false]
      exact h2

end Ns2.ScoreBoard1
