import Ns2.Tcp.ReassemblyRuns

/-! The score board of a sender that keeps the SACK blocks in a reassembly queue: which packet it
retransmits next. -/

namespace Ns2

namespace ReassemblyQueue

/-- `cnts` from the block `p` on. -/
def cnts (s : ReassemblyQueue) : ℕ → Option ℕ → Option (ℤ × ℤ)
  | 0, _ => none
  | _ + 1, none => some (0, 0)
  | fuel + 1, some p =>
    if s.live p then
      (s.cnts fuel (s.fifo.next p)).map fun c => (c.1 + 1, c.2 + (s.endseq_ p - s.startseq_ p))
    else none

/-- The loop of `nexthole`: the hole, with the number and the length of the blocks above it. -/
def nextholeLoop (s : ReassemblyQueue) (seq : ℤ) : ℕ → Option ℕ → Option (ℤ × ℤ × ℤ)
  | 0, _ => none
  | _ + 1, none => some (-1, -1, -1)
  | fuel + 1, some p =>
    if s.live p = false then none
    else if s.startseq_ p > seq then (s.cnts (s.brk + 1) (some p)).map fun c => (seq, c)
    else if s.startseq_ p ≤ seq ∧ s.endseq_ p ≥ seq then
      if s.fifo.next p = none then some (s.endseq_ p, -1, -1)
      else (s.cnts (s.brk + 1) (s.fifo.next p)).map fun c => (s.endseq_ p, c)
    else s.nextholeLoop seq fuel (s.fifo.next p)

def nexthole (s : ReassemblyQueue) (seq : ℤ) : Option (ReassemblyQueue × ℤ × ℤ × ℤ) :=
  (s.nextholeLoop seq (s.brk + 1) s.fifo.head).map ({ s with hint_ := s.fifo.head }, ·)

variable {s t : ReassemblyQueue} {fs ls : List ℕ} {R : Set ℤ} {seq : ℤ}

theorem View.cnts (h : View s fs ls) {A B : List ℕ} (hfs : fs = A ++ B) {fuel : ℕ}
    (hfuel : B.length < fuel) : ∃ c, s.cnts fuel B.head? = some c := by
  induction B generalizing A fuel with
  | nil =>
    obtain ⟨fuel, rfl⟩ : ∃ k, fuel = k + 1 := ⟨fuel - 1, by simp at hfuel; omega⟩
    exact ⟨(0, 0), rfl⟩
  | cons p B ih =>
    obtain ⟨fuel, rfl⟩ : ∃ k, fuel = k + 1 := ⟨fuel - 1, by simp at hfuel; omega⟩
    have hnext : s.fifo.next p = B.head? := (hfs ▸ h.nodes.fifo).next
    have hlive := h.nodes.live p (by simp [hfs])
    obtain ⟨c, hc⟩ := ih (A := A ++ [p]) (by simp [hfs]) (by simpa using hfuel)
    refine ⟨(c.1 + 1, c.2 + (s.endseq_ p - s.startseq_ p)), ?_⟩
    rw [List.head?_cons, ReassemblyQueue.cnts, if_pos hlive, hnext, hc]
    rfl

/-- A hole is not below the number that is asked for, and no block covers it. -/
theorem View.nextholeLoop (h : View s fs ls) {A B : List ℕ} (hfs : fs = A ++ B)
    (hA : ∀ a ∈ A, s.endseq_ a < seq) {fuel : ℕ} (hfuel : B.length < fuel) :
    ∃ v c, s.nextholeLoop seq fuel B.head? = some (v, c) ∧
      (v = -1 ∨ seq ≤ v ∧ ∀ a ∈ fs, ¬ (s.startseq_ a ≤ v ∧ v < s.endseq_ a)) := by
  induction B generalizing A fuel with
  | nil =>
    obtain ⟨fuel, rfl⟩ : ∃ k, fuel = k + 1 := ⟨fuel - 1, by simp at hfuel; omega⟩
    exact ⟨-1, (-1, -1), rfl, .inl rfl⟩
  | cons p B ih =>
    obtain ⟨fuel, rfl⟩ : ∃ k, fuel = k + 1 := ⟨fuel - 1, by simp at hfuel; omega⟩
    have hnext : s.fifo.next p = B.head? := (hfs ▸ h.nodes.fifo).next
    have hlive := h.nodes.live p (by simp [hfs])
    have hlen := h.nodes.length_le
    have hright : ∀ b ∈ B, s.endseq_ p < s.startseq_ b := fun b hb =>
      View.lt (L := A ++ [p]) (R := B) (by simpa [hfs] using h) (by simp) hb
    rw [hfs] at hlen
    simp only [List.length_append, List.length_cons] at hlen hfuel
    rw [List.head?_cons, ReassemblyQueue.nextholeLoop, if_neg (by simp [hlive])]
    by_cases hstart : s.startseq_ p > seq
    · have hup : (p :: B).length < s.brk + 1 := by
        rw [List.length_cons]
        omega
      obtain ⟨c, hc⟩ := h.cnts hfs hup
      rw [List.head?_cons] at hc
      refine ⟨seq, c, by rw [if_pos hstart, hc]; rfl, .inr ⟨le_rfl, fun a ha => ?_⟩⟩
      rw [hfs] at ha
      rcases List.mem_append.mp ha with ha | ha
      · have := hA a ha
        omega
      · rcases List.mem_cons.mp ha with rfl | ha
        · omega
        · have h1 := hright a ha
          have h2 := h.proper p (by simp [hfs])
          omega
    · rw [if_neg hstart]
      by_cases hcov : s.startseq_ p ≤ seq ∧ s.endseq_ p ≥ seq
      · rw [if_pos hcov]
        have hres : ∃ c, (if s.fifo.next p = none then some (s.endseq_ p, (-1 : ℤ), (-1 : ℤ))
            else (s.cnts (s.brk + 1) (s.fifo.next p)).map fun c => (s.endseq_ p, c)) =
              some (s.endseq_ p, c) := by
          by_cases hlast : s.fifo.next p = none
          · exact ⟨(-1, -1), if_pos hlast⟩
          · have hup : B.length < s.brk + 1 := by omega
            obtain ⟨c, hc⟩ := h.cnts (A := A ++ [p]) (by simp [hfs]) hup
            exact ⟨c, by rw [if_neg hlast, hnext, hc]; rfl⟩
        obtain ⟨c, hc⟩ := hres
        refine ⟨s.endseq_ p, c, hc, .inr ⟨hcov.2, fun a ha => ?_⟩⟩
        rw [hfs] at ha
        rcases List.mem_append.mp ha with ha | ha
        · have := hA a ha
          omega
        · rcases List.mem_cons.mp ha with rfl | ha
          · omega
          · have h1 := hright a ha
            omega
      · rw [if_neg hcov, hnext]
        refine ih (A := A ++ [p]) (by simp [hfs]) (fun a ha => ?_) (by omega)
        rcases List.mem_append.mp ha with ha | ha
        · exact hA a ha
        · obtain rfl := List.mem_singleton.mp ha
          omega

/-- The blocks cover `R`, and `rcv_nxt_` is not behind any of them. -/
structure Ahead (s : ReassemblyQueue) (fs : List ℕ) (R : Set ℤ) : Prop where
  blocks : Blocks s fs R
  ends : ∀ a ∈ fs, s.rcv_nxt_ ≤ s.endseq_ a

theorem Ahead.nexthole (h : Ahead s fs R) (seq : ℤ) :
    ∃ v c, s.nexthole seq = some ({ s with hint_ := s.fifo.head }, v, c) ∧
      (v = -1 ∨ seq ≤ v ∧ v ∉ R) ∧ (fs = [] → v = -1) := by
  obtain ⟨ls, hv⟩ := h.blocks.view
  have hnone : ∀ a ∈ ([] : List ℕ), s.endseq_ a < seq := by simp
  obtain ⟨v, c, hloop, hres⟩ := hv.nextholeLoop (List.nil_append fs).symm hnone
    (Nat.lt_succ_of_le hv.nodes.length_le)
  rw [← hv.nodes.fifo.head] at hloop
  refine ⟨v, c, by rw [ReassemblyQueue.nexthole, hloop]; rfl, hres.imp_right fun hr => ⟨hr.1, ?_⟩,
    fun hnil => ?_⟩
  · rw [← h.blocks.cover]
    rintro ⟨a, ha, hin⟩
    exact hr.2 a ha hin
  · have hhead := hv.nodes.fifo.head
    rw [hnil] at hhead
    rw [hhead] at hloop
    exact (Prod.mk.inj (Option.some.inj hloop)).1.symm

theorem Ahead.hint (h : Ahead s fs R) (p : Option ℕ) : Ahead { s with hint_ := p } fs R := by
  obtain ⟨ls, hv⟩ := h.blocks.view
  have hv' : View { s with hint_ := p } fs ls :=
    ⟨hv.nodes.congr rfl rfl rfl rfl rfl, hv.proper, hv.apart, hv.total⟩
  exact ⟨hv'.blocks h.blocks.normal.pos h.blocks.cover, h.ends⟩

/-- The block that takes in others is not behind `rcv_nxt_` either. -/
theorem Ahead.gathers {L T B ls' : List ℕ} {m : ℕ} {fresh : Bool} {lost : Option ℕ} {f : ℕ}
    {start end_ : ℤ} (h : Ahead s (L ++ T ++ B) R)
    (hg : Gathers s t L T B ls ls' m fresh lost start end_ f) :
    (∀ a ∈ L ++ m :: B, t.rcv_nxt_ ≤ t.endseq_ a) ∧
      ∀ l, l < s.rcv_nxt_ → l < end_ → l < t.rcv_nxt_ := by
  have hpair := List.pairwise_append.mp hg.view.apart
  have hm : end_ ≤ t.endseq_ m := (hg.hi end_).mpr (.inl le_rfl)
  have hTm : ∀ a ∈ T, s.endseq_ a ≤ t.endseq_ m := fun a ha => (hg.hi _).mpr (.inr ⟨a, ha, le_rfl⟩)
  have hmproper := hg.view.proper m (by simp)
  have hold : ∀ a ∈ L ++ B, s.rcv_nxt_ ≤ t.endseq_ a := fun a ha => by
    rw [hg.endseq a ha]
    refine h.ends a ?_
    simp only [List.mem_append] at ha ⊢
    tauto
  have hLm : ∀ a ∈ L, t.endseq_ a < t.startseq_ m := fun a ha => hpair.2.2 a ha m (by simp)
  have hmB : ∀ b ∈ B, t.endseq_ m < t.startseq_ b := (List.pairwise_cons.mp hpair.2.1).1
  have hB : ∀ b ∈ B, t.startseq_ b ≤ t.endseq_ b := fun b hb => hg.view.proper b (by simp [hb])
  rcases hg.rcv_nxt with ⟨hfresh, -, hend, hrcv⟩ | ⟨x, hx, hrcv⟩
  · have hmT := (hg.first hfresh).1
    have := h.ends m (by simp [hmT])
    refine ⟨fun a ha => ?_, fun l hl _ => hrcv ▸ hl⟩
    rw [hrcv]
    rcases List.mem_cons.mp (List.perm_middle.mem_iff.mp ha) with rfl | ha
    · omega
    · exact hold a ha
  · have hxmem : x ∈ L ++ m :: B := by
      rcases hx with rfl | hx
      · simp
      · exact List.mem_of_mem_head? hx
    have hxm : x = m ∨ x ∈ L := by
      rcases hx with rfl | hx
      · exact .inl rfl
      · cases L with
        | nil => exact .inl (Option.some.inj hx).symm
        | cons y L => exact .inr (by simp [Option.some.inj hx])
    rw [hrcv, adv]
    by_cases hge : s.rcv_nxt_ ≥ t.startseq_ x
    · rw [if_pos hge]
      refine ⟨fun a ha => ?_, fun l hl hle => ?_⟩
      · rcases hx with rfl | hx
        · rcases List.mem_append.mp ha with ha | ha
          · have h1 := hLm a ha
            have h2 := hold a (List.mem_append_left B ha)
            omega
          · rcases List.mem_cons.mp ha with rfl | ha
            · exact le_rfl
            · have h1 := hmB a ha
              have h2 := hB a ha
              omega
        · obtain ⟨rest, hrest⟩ := List.head?_eq_some_iff.mp hx
          have hapart := hg.view.apart
          have hproper := hg.view.proper a ha
          rw [hrest] at ha hapart
          rcases List.mem_cons.mp ha with rfl | ha
          · exact le_rfl
          · have h1 := (List.pairwise_cons.mp hapart).1 a ha
            omega
      · rcases hxm with rfl | hxL
        · omega
        · exact hl.trans_le (hold x (List.mem_append_left B hxL))
    · rw [if_neg hge]
      refine ⟨fun a ha => ?_, fun l hl _ => hl⟩
      rcases List.mem_cons.mp (List.perm_middle.mem_iff.mp ha) with rfl | ha
      · rcases hxm with rfl | hxL
        · omega
        · have h1 := hLm x hxL
          have h2 := hold x (List.mem_append_left B hxL)
          omega
      · exact hold a ha

/-- `rcv_nxt_` stays above every number that it was above, if the segment ends above it. -/
theorem Ahead.add (h : Ahead s fs R) {start end_ : ℤ} (hlt : start < end_) :
    ∃ t flags fs', s.add start end_ 0 0 = some (t, flags) ∧ Ahead t fs' (R ∪ Set.Ico start end_) ∧
      ∀ l, l < s.rcv_nxt_ → l < end_ → l < t.rcv_nxt_ := by
  obtain ⟨t, flags, h1, L, T, B, ls, ls', m, fresh, lost, rfl, hT, hg⟩ :=
    h.blocks.add_gathers hlt 0 0
  obtain ⟨hends, hrcv⟩ := h.gathers hg
  exact ⟨t, flags, L ++ m :: B, h1, ⟨h.blocks.gathers hg hT hlt, hends⟩, hrcv⟩

/-- What `cleartonxt` removes is below `rcv_nxt_`. -/
theorem Ahead.cleartonxt (h : Blocks s fs R) : ∃ t flags fs', s.cleartonxt = some (t, flags) ∧
    Ahead t fs' (R ∩ Set.Ici s.rcv_nxt_) ∧ t.rcv_nxt_ = s.rcv_nxt_ := by
  obtain ⟨ls, hv⟩ := h.view
  obtain ⟨t, flags, D, fs', rfl, h1, h2, h3, h4, h5, h6, -, h8, -⟩ := hv.clearto s.rcv_nxt_
  refine ⟨t, flags, fs', h1, ⟨h2.blocks (fun a ha => ?_) ?_, fun a ha => ?_⟩, h8⟩
  · rw [h5 a ha, h6]
    exact max_lt (h4 a ha) (h.normal.pos a (by simp [ha]))
  · rw [← h.cover]
    exact cover_clearto h3 h5 h6
  · rw [h8, h6]
    exact (h4 a ha).le

end ReassemblyQueue

/-- The score board; `sack_min` is the variable `rcv_nxt_` of the queue. -/
structure ScoreBoardRQ where
  h_seqno_ : ℤ
  changed_ : Bool
  rq_ : ReassemblyQueue

namespace ScoreBoardRQ

open ReassemblyQueue

def new : ScoreBoardRQ := ⟨-1, false, .new (-1)⟩

def sack_min (s : ScoreBoardRQ) : ℤ := s.rq_.rcv_nxt_

def ClearScoreBoard (s : ScoreBoardRQ) : Option ScoreBoardRQ :=
  s.rq_.clear.map fun rq => { s with h_seqno_ := -1, rq_ := rq }

def GetNextRetran (s : ScoreBoardRQ) : Option (ScoreBoardRQ × ℤ) :=
  let s := { s with h_seqno_ := if s.h_seqno_ < s.sack_min then s.sack_min else s.h_seqno_ }
  (s.rq_.nexthole s.h_seqno_).map fun r =>
    let s := { s with rq_ := r.1 }
    let seq := r.2.1
    let fcnt := r.2.2.1
    if seq > 0 then
      if fcnt ≤ 0 then (s, -1)
      else ({ s with h_seqno_ := if seq > s.h_seqno_ then seq else s.h_seqno_ }, seq)
    else (s, -1)

def MarkRetran (s : ScoreBoardRQ) (retran_seqno : ℤ) : ScoreBoardRQ :=
  { s with h_seqno_ := if retran_seqno ≥ s.h_seqno_ then retran_seqno + 1 else s.h_seqno_ }

/-- The queue when the blocks up to `last_ack_` are gone, and if it was cleared. -/
def acked (rq : ReassemblyQueue) (last_ack_ : ℤ) : Option (ReassemblyQueue × Bool) :=
  if rq.rcv_nxt_ ≤ last_ack_ then
    if rq.fifo.head ≠ none then
      ({ rq with rcv_nxt_ := last_ack_ + 1 } : ReassemblyQueue).cleartonxt.map fun r => (r.1, true)
    else some ({ rq with rcv_nxt_ := last_ack_ + 1 }, false)
  else some (rq, false)

/-- The loop over the SACK blocks of the header. -/
def addBlocks (rq : ReassemblyQueue) (sa : List (ℤ × ℤ)) : Option ReassemblyQueue :=
  sa.foldlM (fun rq b => (rq.add b.1 b.2 0 0).map Prod.fst) rq

def UpdateScoreBoard (s : ScoreBoardRQ) (last_ack_ : ℤ) (sa : List (ℤ × ℤ)) : Option ScoreBoardRQ :=
  (acked s.rq_ last_ack_).bind fun r =>
    (addBlocks r.1 sa).map fun rq =>
      { s with changed_ := r.2 || s.rq_.total_ ≠ rq.total_, rq_ := rq }

inductive Op where
  | update (last_ack_ : ℤ) (sa : List (ℤ × ℤ))
  | getNextRetran
  | markRetran (retran_seqno : ℤ)
  | clearScoreBoard

/-- An operation, with the number that `GetNextRetran` returns. -/
def step (s : ScoreBoardRQ) : Op → Option (ScoreBoardRQ × Option ℤ)
  | .update last_ack_ sa => (s.UpdateScoreBoard last_ack_ sa).map (·, none)
  | .getNextRetran => s.GetNextRetran.map fun r => (r.1, some r.2)
  | .markRetran retran_seqno => some (s.MarkRetran retran_seqno, none)
  | .clearScoreBoard => s.ClearScoreBoard.map (·, none)

/-- The last acknowledgment, and the blocks that were processed since the board was cleared. -/
structure Acked where
  last_ack : Option ℤ
  blocks : List (ℤ × ℤ)

def record (_ : ScoreBoardRQ) (g : Acked) : Op → Acked
  | .update last_ack_ sa => ⟨some last_ack_, g.blocks ++ sa⟩
  | .clearScoreBoard => { g with blocks := [] }
  | _ => g

/-- Acknowledgments do not decrease, and blocks are not empty. -/
def Valid (p : ScoreBoardRQ × Acked) : Op → Prop
  | .update last_ack_ sa => (∀ l, p.2.last_ack = some l → l ≤ last_ack_) ∧ ∀ b ∈ sa, b.1 < b.2
  | _ => True

/-- Every block of an update ends above the acknowledgment, unless the board is ahead of it. -/
def Above (p : ScoreBoardRQ × Acked) : Op → Prop
  | .update last_ack_ sa => last_ack_ < p.1.h_seqno_ ∨ ∀ b ∈ sa, last_ack_ < b.2
  | _ => True

/-- The number is above the acknowledgment, and not in any of the blocks. -/
def Missing (g : Acked) (seq : ℤ) : Prop :=
  (∀ l, g.last_ack = some l → l < seq) ∧ ∀ b ∈ g.blocks, ¬ (b.1 ≤ seq ∧ seq < b.2)

structure Inv (p : ScoreBoardRQ × Acked) : Prop where
  ahead : ∃ fs R, Ahead p.1.rq_ fs R ∧
    (∀ b ∈ p.2.blocks, ∀ x, b.1 ≤ x → x < b.2 → x ∈ R ∨ ∃ l, p.2.last_ack = some l ∧ x ≤ l) ∧
    (fs = [] ∨ ∀ l, p.2.last_ack = some l → l < p.1.h_seqno_ ∨ l < p.1.sack_min)

theorem inv_new : Inv (new, ⟨none, []⟩) :=
  ⟨[], ∅, ⟨new_blocks (-1), by simp⟩, by simp, .inl rfl⟩

theorem acked_spec {rq : ReassemblyQueue} {fs : List ℕ} {R : Set ℤ} (h : Ahead rq fs R) (l : ℤ) :
    ∃ r fs' R', acked rq l = some r ∧ Ahead r.1 fs' R' ∧ l < r.1.rcv_nxt_ ∧
      ∀ x ∈ R, x ∈ R' ∨ x ≤ l := by
  rw [acked]
  by_cases hle : rq.rcv_nxt_ ≤ l
  · obtain ⟨ls, hv⟩ := h.blocks.view
    have hb : Blocks { rq with rcv_nxt_ := l + 1 } fs R :=
      (hv.rcvnxt (l + 1)).blocks h.blocks.normal.pos h.blocks.cover
    rw [if_pos hle]
    by_cases hhead : rq.fifo.head ≠ none
    · obtain ⟨t, flags, fs', h1, h2, h3⟩ := Ahead.cleartonxt hb
      rw [if_pos hhead, h1]
      refine ⟨(t, true), fs', _, rfl, h2, ?_, fun x hx => ?_⟩
      · show l < t.rcv_nxt_
        rw [h3]
        exact lt_add_one l
      · by_cases hxl : x ≤ l
        · exact .inr hxl
        · exact .inl ⟨hx, show l + 1 ≤ x by omega⟩
    · rw [if_neg hhead]
      have hnil : fs = [] := by
        have := hv.nodes.fifo.head
        rw [not_not.mp hhead] at this
        exact List.head?_eq_none_iff.mp this.symm
      exact ⟨_, fs, R, rfl, ⟨hb, by simp [hnil]⟩, lt_add_one l, fun x hx => .inl hx⟩
  · rw [if_neg hle]
    exact ⟨_, fs, R, rfl, h, not_le.mp hle, fun x hx => .inl hx⟩

theorem addBlocks_spec {rq : ReassemblyQueue} {fs : List ℕ} {R : Set ℤ} (h : Ahead rq fs R)
    {sa : List (ℤ × ℤ)} (hsa : ∀ b ∈ sa, b.1 < b.2) :
    ∃ t fs' R', addBlocks rq sa = some t ∧ Ahead t fs' R' ∧ R ⊆ R' ∧
      (∀ b ∈ sa, Set.Ico b.1 b.2 ⊆ R') ∧
      ∀ l, l < rq.rcv_nxt_ → (∀ b ∈ sa, l < b.2) → l < t.rcv_nxt_ := by
  induction sa generalizing rq fs R with
  | nil => exact ⟨rq, fs, R, rfl, h, subset_rfl, by simp, fun l hl _ => hl⟩
  | cons b sa ih =>
    obtain ⟨hb, hsa⟩ := List.forall_mem_cons.mp hsa
    obtain ⟨t, flags, fs', h1, h2, h3⟩ := h.add hb
    obtain ⟨u, fs'', R', h4, h5, h6, h7, h8⟩ := ih h2 hsa
    refine ⟨u, fs'', R', ?_, h5, Set.subset_union_left.trans h6, ?_, fun l hl hall => ?_⟩
    · rw [addBlocks, List.foldlM_cons, h1]
      exact h4
    · exact List.forall_mem_cons.mpr ⟨Set.subset_union_right.trans h6, h7⟩
    · obtain ⟨hlb, hall⟩ := List.forall_mem_cons.mp hall
      exact h8 l (h3 l hl hlb) hall

variable {s : ScoreBoardRQ} {g : Acked}

theorem Inv.update (h : Inv (s, g)) {l : ℤ} {sa : List (ℤ × ℤ)} (hv : Valid (s, g) (.update l sa))
    (ha : Above (s, g) (.update l sa)) :
    ∃ s', s.UpdateScoreBoard l sa = some s' ∧ Inv (s', ⟨some l, g.blocks ++ sa⟩) := by
  obtain ⟨fs, R, hahead, hcover, -⟩ := h.ahead
  obtain ⟨r, fs1, R1, h1, h2, h3, h4⟩ := acked_spec hahead l
  obtain ⟨rq, fs2, R2, h5, h6, h7, h8, h9⟩ := addBlocks_spec h2 hv.2
  refine ⟨_, by rw [UpdateScoreBoard, h1, Option.bind_some, h5]; rfl, fs2, R2, h6, ?_, .inr ?_⟩
  · intro b hb x hx hxb
    rcases List.mem_append.mp hb with hb | hb
    · rcases hcover b hb x hx hxb with hR | ⟨l', hl', hxl⟩
      · rcases h4 x hR with hR1 | hxl
        · exact .inl (h7 hR1)
        · exact .inr ⟨l, rfl, hxl⟩
      · exact .inr ⟨l, rfl, hxl.trans (hv.1 l' hl')⟩
    · exact .inl (h8 b hb ⟨hx, hxb⟩)
  · intro l' hl'
    obtain rfl := Option.some.inj hl'
    exact ha.imp_right fun hall => h9 l h3 hall

/-- What is to be retransmitted is missing. -/
theorem Inv.getNextRetran (h : Inv (s, g)) : ∃ s' r, s.GetNextRetran = some (s', r) ∧ Inv (s', g) ∧
    (r = -1 ∨ Missing g r) := by
  obtain ⟨fs, R, hahead, hcover, hlast⟩ := h.ahead
  obtain ⟨k, hk⟩ : ∃ k, (if s.h_seqno_ < s.sack_min then s.sack_min else s.h_seqno_) = k :=
    ⟨_, rfl⟩
  have hmax : s.h_seqno_ ≤ k ∧ s.sack_min ≤ k := by
    rw [← hk]
    split_ifs <;> omega
  obtain ⟨v, ⟨fcnt, fbytes⟩, h1, h2, h3⟩ := hahead.nexthole k
  have hkeep : ∀ k', s.h_seqno_ ≤ k' →
      Inv ({ s with h_seqno_ := k', rq_ := { s.rq_ with hint_ := s.rq_.fifo.head } }, g) := by
    intro k' hk'
    refine ⟨fs, R, hahead.hint _, hcover, hlast.imp_right fun hl l hgl => ?_⟩
    exact (hl l hgl).imp_left fun hlt => hlt.trans_le hk'
  rw [GetNextRetran]
  dsimp only
  rw [hk, h1, Option.map_some]
  dsimp only
  by_cases hpos : v > 0
  · rw [if_pos hpos]
    by_cases hfcnt : fcnt ≤ 0
    · rw [if_pos hfcnt]
      exact ⟨_, -1, rfl, hkeep k hmax.1, .inl rfl⟩
    · rw [if_neg hfcnt]
      have hv : v ≠ -1 := by omega
      obtain ⟨hkv, hvR⟩ := h2.resolve_left hv
      have hlast' := hlast.resolve_left fun hnil => hv (h3 hnil)
      have habove : ∀ l, g.last_ack = some l → l < v := by
        intro l hl
        rcases hlast' l hl with hlt | hlt
        · exact hlt.trans_le (hmax.1.trans hkv)
        · exact hlt.trans_le (hmax.2.trans hkv)
      refine ⟨_, v, rfl, hkeep _ ?_, .inr ⟨habove, ?_⟩⟩
      · split_ifs
        · exact hmax.1.trans hkv
        · exact hmax.1
      · rintro b hb ⟨hvb, hvb'⟩
        rcases hcover b hb v hvb hvb' with hR | ⟨l, hl, hvl⟩
        · exact hvR hR
        · exact absurd (habove l hl) (not_lt.mpr hvl)
  · rw [if_neg hpos]
    exact ⟨_, -1, rfl, hkeep k hmax.1, .inl rfl⟩

theorem Inv.step (h : Inv (s, g)) {op : Op} (hv : Valid (s, g) op) (ha : Above (s, g) op) :
    ∃ s' o, s.step op = some (s', o) ∧ Inv (s', record s g op) := by
  cases op with
  | update l sa =>
    obtain ⟨s', h1, h2⟩ := h.update hv ha
    exact ⟨s', none, by rw [ScoreBoardRQ.step, h1]; rfl, h2⟩
  | getNextRetran =>
    obtain ⟨s', r, h1, h2, -⟩ := h.getNextRetran
    exact ⟨s', some r, by rw [ScoreBoardRQ.step, h1]; rfl, h2⟩
  | markRetran seq =>
    obtain ⟨fs, R, hahead, hcover, hlast⟩ := h.ahead
    refine ⟨_, none, rfl, fs, R, hahead, hcover, hlast.imp_right fun hl l hgl => ?_⟩
    refine (hl l hgl).imp_left fun hlt => ?_
    rw [MarkRetran]
    dsimp only at hlt ⊢
    split_ifs <;> omega
  | clearScoreBoard =>
    obtain ⟨fs, R, hahead, -, -⟩ := h.ahead
    obtain ⟨t, h1, h2⟩ := hahead.blocks.clear
    refine ⟨{ s with h_seqno_ := -1, rq_ := t }, none, ?_, [], ∅, ⟨h2, by simp⟩, ?_, .inl rfl⟩
    · rw [ScoreBoardRQ.step, ClearScoreBoard, h1]
      rfl
    · intro b hb
      cases hb

/-- As long as every block of an update ends above the acknowledgment, or the board is ahead of it,
the number that is to be retransmitted is neither acknowledged nor in a block. -/
theorem getNextRetran_missing {ops : List Op}
    (hops : Machine.Admits (Machine.ghost step record) (fun p op => Valid p op ∧ Above p op)
      (new, ⟨none, []⟩) ops) :
    ∃ s g os, Machine.run (Machine.ghost step record) (new, ⟨none, []⟩) ops = some ((s, g), os) ∧
      ∃ s' r, s.GetNextRetran = some (s', r) ∧ (r = -1 ∨ Missing g r) := by
  have hstep : ∀ p op, Inv p → Valid p op ∧ Above p op →
      ∃ p' o, Machine.ghost step record p op = some (p', o) ∧ Inv p' := by
    rintro ⟨s, g⟩ op h ⟨hv, ha⟩
    obtain ⟨s', o, h1, h2⟩ := h.step hv ha
    exact ⟨_, o, Machine.ghost_eq_some h1 record g, h2⟩
  obtain ⟨⟨s, g⟩, os, hrun, hinv⟩ := Machine.run_total hstep inv_new hops
  obtain ⟨s', r, h1, -, h2⟩ := hinv.getNextRetran
  exact ⟨s, g, os, hrun, s', r, h1, h2⟩

/-- A packet was received twice, and another one is missing. -/
def duplicate : List Op := [.update 5 [(2, 3), (9, 10)]]

theorem getNextRetran_acked : ¬ ∀ ops : List Op,
    Machine.Admits (Machine.ghost step record) Valid (new, ⟨none, []⟩) ops →
      ∃ s g os, Machine.run (Machine.ghost step record) (new, ⟨none, []⟩) ops = some ((s, g), os) ∧
        ∃ s' r, s.GetNextRetran = some (s', r) ∧ (r = -1 ∨ Missing g r) := by
  intro h
  obtain ⟨s, g, os, hrun, s', r, hget, hr⟩ := h duplicate
    ⟨⟨(fun l hl => by cases hl), by decide⟩, fun _ _ _ => trivial⟩
  have hthree : ((Machine.run (Machine.ghost step record) (new, ⟨none, []⟩) duplicate).bind fun p =>
      p.1.1.GetNextRetran.map fun q => (p.1.2.last_ack, q.2)) = some (some 5, 3) := by
    decide +kernel
  rw [hrun, Option.bind_some, hget, Option.map_some] at hthree
  obtain ⟨hlast, rfl⟩ := Prod.mk.inj (Option.some.inj hthree)
  rcases hr with hr | hr
  · exact absurd hr (by decide)
  · exact absurd (hr.1 5 hlast) (by decide)

/-- A hole below a block. -/
theorem getNextRetran_missing_two : ∃ s g os,
    Machine.run (Machine.ghost step record) (new, ⟨none, []⟩) [.update 5 [(9, 10)]] =
      some ((s, g), os) ∧ ∃ s' r, s.GetNextRetran = some (s', r) ∧ (r = -1 ∨ Missing g r) :=
  getNextRetran_missing
    ⟨⟨⟨(fun l hl => by cases hl), by decide⟩, .inr (by decide)⟩, fun _ _ _ => trivial⟩

end ScoreBoardRQ

end Ns2
