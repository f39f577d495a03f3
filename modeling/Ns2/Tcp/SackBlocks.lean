import Ns2.Tcp.AckerWindow
import Ns2.Tcp.Sacker

/-! The blocks of an ACK: the scans of the ring find the received run around a packet, and the
stack keeps received blocks above the cumulative acknowledgement only. -/

namespace Ns2

open Acker

/-- The packets received, as they are recorded. -/
def Got (as : List (ℤ × ℤ)) (i : ℤ) : Prop := recorded as i ≠ 0

/-- A block above `next` of received packets. -/
def Block (got : ℤ → Prop) (next : ℤ) (e : ℤ × ℤ) : Prop :=
  next < e.1 ∧ e.1 < e.2 ∧ ∀ i, e.1 ≤ i → i < e.2 → got i

/-- The maximal run of received packets that contains `seq`. -/
def IsRun (got : ℤ → Prop) (seq : ℤ) (e : ℤ × ℤ) : Prop :=
  e.1 ≤ seq ∧ seq < e.2 ∧ (∀ i, e.1 ≤ i → i < e.2 → got i) ∧ ¬ got (e.1 - 1) ∧ ¬ got e.2

theorem Block.mono {got got' : ℤ → Prop} {next : ℤ} {e : ℤ × ℤ} (h : Block got next e)
    (hg : ∀ i, got i → got' i) : Block got' next e :=
  ⟨h.1, h.2.1, fun i hi hie => hg i (h.2.2 i hi hie)⟩

/-- A block never reaches over a packet that was not received. -/
theorem Block.split {got : ℤ → Prop} {next next' : ℤ} {e : ℤ × ℤ} (h : Block got next e)
    (hgap : ¬ got next') : Block got next' e ∨ e.2 ≤ next' := by
  rcases lt_or_ge next' e.1 with hlt | hge
  · exact .inl ⟨hlt, h.2.1, h.2.2⟩
  · right
    by_contra hlt
    exact hgap (h.2.2 next' hge (not_le.mp hlt))

namespace Sacker

theorem rightEdge_spec {as : List (ℤ × ℤ)} {s : Sacker} {n : ℕ} {i : ℤ} (hi : i + n = s.maxseen_ + 1)
    (hslots : Slots as i s.toAcker) (hend : recorded as (s.maxseen_ + 1) = 0) :
    i ≤ rightEdge s n i ∧ rightEdge s n i ≤ s.maxseen_ + 1 ∧
      (∀ j, i ≤ j → j < rightEdge s n i → recorded as j ≠ 0) ∧ recorded as (rightEdge s n i) = 0 := by
  induction n generalizing i with
  | zero =>
    rw [rightEdge]
    exact ⟨by omega, le_rfl, fun j hj hlt => by omega, hend⟩
  | succ n ih =>
    rw [rightEdge, hslots i le_rfl (by omega)]
    by_cases hz : recorded as i = 0
    · rw [if_pos hz]
      exact ⟨le_rfl, by omega, fun j hj hlt => by omega, hz⟩
    · rw [if_neg hz]
      obtain ⟨h1, h2, h3, h4⟩ := @ih (i + 1) (by push_cast at hi; omega)
        (fun j hj hjm => hslots j (by omega) hjm)
      refine ⟨by omega, h2, fun j hj hlt => ?_, h4⟩
      rcases eq_or_lt_of_le hj with rfl | hj
      · exact hz
      · exact h3 j (by omega) hlt

theorem leftEdge_spec {as : List (ℤ × ℤ)} {s : Sacker} {n : ℕ} {i : ℤ} (hn : i + 1 - n = s.next_)
    (hi : s.next_ ≤ i) (him : i ≤ s.maxseen_ + 1) (hslots : Slots as s.next_ s.toAcker)
    (hgap : recorded as s.next_ = 0) :
    s.next_ < leftEdge s n i ∧ leftEdge s n i ≤ i + 1 ∧
      (∀ j, leftEdge s n i ≤ j → j ≤ i → recorded as j ≠ 0) ∧
      recorded as (leftEdge s n i - 1) = 0 := by
  induction n generalizing i with
  | zero => omega
  | succ n ih =>
    rw [leftEdge, hslots i hi him]
    by_cases hz : recorded as i = 0
    · rw [if_pos hz]
      exact ⟨by omega, le_rfl, fun j hj hji => by omega, by simpa using hz⟩
    · have hne : i ≠ s.next_ := by
        rintro rfl
        exact hz hgap
      rw [if_neg hz]
      obtain ⟨h1, h2, h3, h4⟩ := @ih (i - 1) (by push_cast at hn; omega) (by omega) (by omega)
      refine ⟨h1, by omega, fun j hj hji => ?_, h4⟩
      rcases eq_or_lt_of_le hji with rfl | hji
      · exact hz
      · exact h3 j hj (by omega)

theorem history_sublist (maxseen left right : ℤ) (l : List (ℤ × ℤ)) (room : ℕ) :
    (history maxseen left right l room).1.Sublist l := by
  induction l generalizing room with
  | nil => cases room <;> simp [history]
  | cons e l ih =>
    cases room with
    | zero => simp [history]
    | succ room =>
      rw [history]
      split_ifs
      · exact .refl _
      · exact (ih _).cons e
      · exact (ih _).cons_cons e

theorem history_forall {p : ℤ × ℤ → Prop} {maxseen left right : ℤ} {l : List (ℤ × ℤ)} {room : ℕ}
    (h : ∀ e ∈ l, p e) : ∀ e ∈ (history maxseen left right l room).1, p e := fun e he =>
  h e ((history_sublist maxseen left right l room).subset he)

theorem history_blocks (maxseen left right : ℤ) (l : List (ℤ × ℤ)) (room : ℕ) :
    (history maxseen left right l room).2 ⊆ (history maxseen left right l room).1 := by
  induction l generalizing room with
  | nil => cases room <;> simp [history]
  | cons e l ih =>
    cases room with
    | zero => simp [history]
    | succ room =>
      rw [history]
      split_ifs
      · simp
      · exact ih _
      · exact List.cons_subset_cons e (ih _)

/-- With room for the whole stack, no entry stays that the newest block covers up. -/
theorem history_uncovered {maxseen left right : ℤ} {l : List (ℤ × ℤ)} {room : ℕ}
    (hroom : l.length ≤ room) (hl : ∀ e ∈ l, 0 ≤ e.1 ∧ 0 ≤ e.2 ∧ e.2 ≤ maxseen + 1) :
    ∀ e ∈ (history maxseen left right l room).1, ¬ (left ≤ e.1 ∧ right ≥ e.2) := by
  induction l generalizing room with
  | nil => cases room <;> simp [history]
  | cons e l ih =>
    cases room with
    | zero => simp at hroom
    | succ room =>
      have he := hl e (by simp)
      have hl' := fun e' he' => hl e' (List.mem_cons_of_mem e he')
      rw [List.length_cons, Nat.add_le_add_iff_right] at hroom
      rw [history, if_neg (by omega)]
      split_ifs with hcov
      · exact ih (by omega) hl'
      · intro e' he'
        rcases List.mem_cons.mp he' with rfl | he'
        · exact hcov
        · exact ih hroom hl' e' he'

/-- The two scans find the run of received packets around one that is above the window's edge. -/
theorem newest_run {as : List (ℤ × ℤ)} {s : Sacker} {seq right left : ℤ} (h : Inv as s.toAcker)
    (hlt : s.Seqno < seq) (hseq : Got as seq)
    (hr : right = rightEdge s (s.maxseen_ + 1 - seq).toNat seq)
    (hl : left = leftEdge s (right - 1 - s.Seqno).toNat (right - 1)) :
    IsRun (Got as) seq (left, right) ∧ s.next_ < left := by
  have hmax : seq ≤ s.maxseen_ := by
    by_contra hgt
    exact hseq (h.above seq (not_le.mp hgt))
  rw [Seqno] at hlt hl
  obtain ⟨r1, r2, r3, r4⟩ := @rightEdge_spec as s (s.maxseen_ + 1 - seq).toNat seq (by omega)
    (fun i hi him => h.slots i (by omega) him) (h.above _ (by omega))
  rw [← hr] at r1 r2 r3 r4
  have hne : seq ≠ right := by
    rintro rfl
    exact hseq r4
  obtain ⟨l1, l2, l3, l4⟩ := @leftEdge_spec as s (right - 1 - (s.next_ - 1)).toNat (right - 1)
    (by omega) (by omega) (by omega) h.slots h.gap
  rw [← hl] at l1 l2 l3 l4
  have hle : left ≤ seq := by
    by_contra hgt
    rcases eq_or_lt_of_le (show seq ≤ left - 1 by omega) with he | hlt'
    · exact hseq (he ▸ l4)
    · exact r3 (left - 1) (by omega) (by omega) l4
  refine ⟨⟨hle, by show seq < right; omega, fun i hi hir => ?_, not_not.mpr l4, not_not.mpr r4⟩, l1⟩
  change left ≤ i at hi
  change i < right at hir
  exact l3 i hi (by omega)

/-- The packet `seq` has just filled the hole in front of the window. -/
structure Filled (as : List (ℤ × ℤ)) (s : Sacker) (seq : ℤ) : Prop where
  new : s.is_dup_ = false
  start : 0 ≤ seq
  le : seq < s.next_
  slots : Slots as seq s.toAcker
  got : ∀ j, seq ≤ j → j < s.next_ → Got as j

theorem Filled.rightEdge_eq {as : List (ℤ × ℤ)} {s : Sacker} {seq : ℤ} (hf : Filled as s seq)
    (h : Inv as s.toAcker) : rightEdge s (s.maxseen_ + 1 - seq).toNat seq = s.next_ := by
  have hle := hf.le
  have hnext := h.next_le
  obtain ⟨r1, r2, r3, r4⟩ := @rightEdge_spec as s (s.maxseen_ + 1 - seq).toNat seq (by omega) hf.slots
    (h.above _ (by omega))
  apply le_antisymm
  · by_contra hgt
    exact r3 s.next_ hle.le (not_le.mp hgt) h.gap
  · by_contra hlt
    exact hf.got _ r1 (not_le.mp hlt) r4

/-- The stack holds blocks above the window's edge, and one for each block of an ACK at most. -/
structure Stack (got : ℤ → Prop) (s : Sacker) : Prop where
  size : s.sf_.size_ = s.base_nblocks_
  length : s.sf_.SFE_.length ≤ s.base_nblocks_
  blocks : ∀ e ∈ s.sf_.SFE_, Block got s.next_ e

/-- What the blocks of the ACK for a packet `seq` say, behind the `dsacks` blocks for a duplicate,
when `seqno` is acknowledged. -/
structure Reports (got : ℤ → Prop) (seqno : ℤ) (nblocks dsacks : ℕ) (seq : ℤ)
    (blocks : List (ℤ × ℤ)) : Prop where
  dsack : ∀ b ∈ blocks.take dsacks, b = (seq, seq + 1)
  received : ∀ b ∈ blocks.drop dsacks, Block got seqno b
  first : seqno < seq → if dsacks < nblocks then
    ∃ b, (blocks.drop dsacks).head? = some b ∧ IsRun got seq b else blocks.drop dsacks = []

/-- The number of blocks for a duplicate. -/
def dsacks (generate_dsacks : Bool) (s : Sacker) : ℕ := if generate_dsacks ∧ s.is_dup_ then 1 else 0

theorem dsack_length (g : Bool) (s : Sacker) (seq : ℤ) : (dsack g s seq).length = dsacks g s := by
  rw [dsack, dsacks]
  split_ifs <;> rfl

theorem seqno_of_next {got : ℤ → Prop} {s : Sacker} {e : ℤ × ℤ} (h : Block got s.next_ e) :
    Block got s.Seqno e :=
  ⟨by rw [Seqno]; linarith [h.1], h.2⟩

theorem reports_nil {got : ℤ → Prop} {s : Sacker} {n : ℕ} {seq : ℤ}
    (h : s.Seqno < seq → s.base_nblocks_ = 0) :
    Reports got s.Seqno s.base_nblocks_ n seq [] := by
  refine ⟨by simp, by simp, fun hlt => ?_⟩
  rw [if_neg (by simp [h hlt])]
  simp

theorem reports_append {got : ℤ → Prop} {s : Sacker} {g : Bool} {seq : ℤ} {blocks : List (ℤ × ℤ)}
    (hblocks : ∀ b ∈ blocks, Block got s.next_ b)
    (hfirst : s.Seqno < seq → if dsacks g s < s.base_nblocks_ then
      ∃ b, blocks.head? = some b ∧ IsRun got seq b else blocks = []) :
    Reports got s.Seqno s.base_nblocks_ (dsacks g s) seq (dsack g s seq ++ blocks) := by
  refine ⟨?_, ?_, ?_⟩
  · rw [← dsack_length g s seq, List.take_left, dsack]
    split_ifs <;> simp
  · rw [← dsack_length g s seq, List.drop_left]
    exact fun b hb => seqno_of_next (hblocks b hb)
  · rw [← dsack_length g s seq, List.drop_left, dsack_length]
    exact hfirst

/-- An entry of the stack, which a packet in order may have made obsolete. -/
def Entry (as : List (ℤ × ℤ)) (s : Sacker) (seq : ℤ) (e : ℤ × ℤ) : Prop :=
  Block (Got as) s.next_ e ∨ 0 ≤ e.1 ∧ e.1 < e.2 ∧ e.2 ≤ s.next_ ∧ Filled as s seq

theorem Entry.block {as : List (ℤ × ℤ)} {s : Sacker} {seq : ℤ} {e : ℤ × ℤ} (h : Entry as s seq e)
    (hf : ¬ Filled as s seq) : Block (Got as) s.next_ e :=
  h.resolve_right fun hs => hf hs.2.2.2

theorem Entry.bounds {as : List (ℤ × ℤ)} {s : Sacker} {seq : ℤ} {e : ℤ × ℤ} (h : Entry as s seq e)
    (hinv : Inv as s.toAcker) : 0 ≤ e.1 ∧ 0 ≤ e.2 ∧ e.2 ≤ s.maxseen_ + 1 := by
  have hnext := hinv.next_nonneg
  have hle := hinv.next_le
  rcases h with h | ⟨h0, hlt, h2, -⟩
  · have h1 := h.1
    have hlt := h.2.1
    have hmax : e.2 ≤ s.maxseen_ + 1 := by
      by_contra hgt
      exact h.2.2 (e.2 - 1) (by omega) (by omega) (hinv.above _ (by omega))
    exact ⟨by omega, by omega, hmax⟩
  · exact ⟨h0, by omega, by omega⟩

theorem push_length {f : SackStack} {n : ℕ} (hn : 0 < n) (hlen : f.SFE_.length ≤ n)
    (hsize : f.size_ = n) (left right : ℤ) : (f.push left right).SFE_.length ≤ n := by
  show (_ :: _ : List (ℤ × ℤ)).length ≤ n
  rw [SackStack.cnt, hsize]
  split_ifs with hfull
  · simp only [List.length_cons, List.length_take]
    omega
  · simp only [List.length_cons]
    omega

theorem push_forall {f : SackStack} {p : ℤ × ℤ → Prop} {left right : ℤ} (hp : p (left, right))
    (hf : ∀ e ∈ f.SFE_, p e) : ∀ e ∈ (f.push left right).SFE_, p e := by
  intro e he
  rcases List.mem_cons.mp he with rfl | he
  · exact hp
  · apply hf
    split_ifs at he
    · exact List.mem_of_mem_take he
    · exact he

/-- The entries that stay when a packet at or below the edge is acknowledged. -/
theorem history_old {as : List (ℤ × ℤ)} {s : Sacker} {seq : ℤ} {g : Bool} (h : Inv as s.toAcker)
    (hlen : s.sf_.SFE_.length ≤ s.base_nblocks_) (hentries : ∀ e ∈ s.sf_.SFE_, Entry as s seq e) :
    ∀ e ∈ (history s.maxseen_ 0 (rightEdge s (s.maxseen_ + 1 - seq).toNat seq) s.sf_.SFE_
      (s.base_nblocks_ - (dsack g s seq).length)).1,
      Block (Got as) s.next_ e := by
  intro e he
  have hmem := (history_sublist ..).subset he
  by_cases hf : Filled as s seq
  · rw [dsack, if_neg (by simp [hf.new])] at he
    have hunc := history_uncovered (by simpa using hlen) (fun e he => (hentries e he).bounds h) e he
    rw [hf.rightEdge_eq h] at hunc
    apply (hentries e hmem).resolve_right
    rintro ⟨h0, -, h2, -⟩
    exact hunc ⟨h0, h2⟩
  · exact (hentries e hmem).block hf

theorem appendAck_spec {as : List (ℤ × ℤ)} {s : Sacker} {seq : ℤ} (g : Bool) (h : Inv as s.toAcker)
    (hsize : s.sf_.size_ = s.base_nblocks_) (hlen : s.sf_.SFE_.length ≤ s.base_nblocks_)
    (hentries : ∀ e ∈ s.sf_.SFE_, Entry as s seq e) (hseq : 0 ≤ seq → Got as seq) :
    (appendAck g s seq).1.toAcker = s.toAcker ∧
      (appendAck g s seq).1.base_nblocks_ = s.base_nblocks_ ∧
      Stack (Got as) (appendAck g s seq).1 ∧
      Reports (Got as) s.Seqno s.base_nblocks_ (dsacks g s) seq (appendAck g s seq).2 := by
  have hnext := h.next_nonneg
  have hmax : seq ≤ s.maxseen_ ∨ seq < 0 := by
    by_contra hgt
    rw [not_or] at hgt
    exact hseq (by omega) (h.above seq (by omega))
  unfold appendAck
  by_cases hneg : seq < 0
  · -- an invalid packet number
    rw [if_pos hneg]
    have hb := fun e he => (hentries e he).block fun hf => hf.start.not_gt hneg
    refine ⟨rfl, rfl, ⟨hsize, hlen, hb⟩, reports_nil fun hlt => ?_⟩
    rw [Seqno] at hlt
    omega
  rw [if_neg hneg]
  by_cases hreset : s.Seqno ≥ s.maxseen_ ∧ s.sf_.cnt ≠ 0
  · rw [if_pos hreset]
    refine ⟨rfl, rfl, ⟨hsize, by simp [SackStack.reset], by simp [SackStack.reset]⟩,
      reports_nil fun hlt => ?_⟩
    have := hreset.1
    rcases hmax with hmax | hmax <;> omega
  rw [if_neg hreset]
  by_cases hblocks : (s.Seqno < s.maxseen_ ∨ s.is_dup_) ∧ s.base_nblocks_ > 0
  · rw [if_pos hblocks]
    dsimp only
    rw [dsack_length]
    by_cases hfull : dsacks g s ≥ s.base_nblocks_
    · -- no room for another block than that of the duplicate
      rw [if_pos hfull]
      have hdup : s.is_dup_ = true := by
        by_contra hnd
        simp [dsacks, hnd] at hfull
        omega
      have hb := fun e he => (hentries e he).block fun hf => by simp [hf.new] at hdup
      refine ⟨rfl, rfl, ⟨hsize, hlen, hb⟩, ?_⟩
      have := @reports_append (Got as) s g seq [] (by simp) fun _ => by
        rw [if_neg (by omega)]
      rwa [List.append_nil] at this
    rw [if_neg hfull]
    by_cases hold : seq ≤ s.Seqno
    · rw [if_pos hold]
      have hkeep := @history_old as s seq g h hlen hentries
      rw [dsack_length] at hkeep
      refine ⟨rfl, rfl, ⟨hsize, ?_, hkeep⟩, reports_append (fun b hb => ?_)
        fun hlt => absurd hold (not_le.mpr hlt)⟩
      · exact (history_sublist ..).length_le.trans hlen
      · exact hkeep b (history_blocks _ _ _ _ _ hb)
    · rw [if_neg hold]
      have hlt : s.Seqno < seq := not_le.mp hold
      obtain ⟨hrun, hleft⟩ := newest_run h hlt (hseq (not_lt.mp hneg)) rfl rfl
      have hentries' := fun e he => (hentries e he).block fun hf => by
        have := hf.le
        rw [Seqno] at hlt
        omega
      have hnew : Block (Got as) s.next_ (_, _) := ⟨hleft, hrun.1.trans_lt hrun.2.1, hrun.2.2.1⟩
      refine ⟨rfl, rfl, ⟨hsize, ?_, ?_⟩, reports_append ?_ fun _ => ?_⟩
      · apply push_length
        · exact hblocks.2
        · exact (history_sublist ..).length_le.trans hlen
        · exact hsize
      · exact push_forall hnew (history_forall hentries')
      · intro b hb
        rcases List.mem_cons.mp hb with rfl | hb
        · exact hnew
        · exact history_forall hentries' b (history_blocks _ _ _ _ _ hb)
      · rw [if_pos (not_le.mp hfull)]
        exact ⟨_, rfl, hrun⟩
  · rw [if_neg hblocks]
    have hnil : s.base_nblocks_ = 0 ∨ s.sf_.SFE_ = [] ∧ s.maxseen_ ≤ s.Seqno := by
      rw [SackStack.cnt, List.length_eq_zero_iff.ne] at hreset
      by_cases hb : s.base_nblocks_ = 0
      · exact .inl hb
      · have hm : s.maxseen_ ≤ s.Seqno := not_lt.mp fun hlt => hblocks ⟨.inl hlt, by omega⟩
        exact .inr ⟨not_not.mp fun hne => hreset ⟨hm, hne⟩, hm⟩
    refine ⟨rfl, rfl, ⟨hsize, hlen, ?_⟩, reports_nil fun hlt => ?_⟩
    · have : s.sf_.SFE_ = [] := hnil.elim (fun hb => by simpa [hb] using hlen) And.left
      simp [this]
    · apply hnil.resolve_right
      omega

end Sacker

/-! ### Arrivals at the sink -/

theorem got_append {as : List (ℤ × ℤ)} {seq n : ℤ} (hn : 0 < n) {i : ℤ} :
    Got (as ++ [(seq, n)]) i ↔ i = seq ∨ Got as i := by
  rw [Got, Got, recorded_append]
  by_cases he : seq = i
  · simp [he, hn.ne']
  · rw [if_neg he]
    simp [Ne.symm he]

theorem next_eq_of_updated {as : List (ℤ × ℤ)} {s s' : Acker} {seq n bytes : ℤ} (h : Inv as s)
    (hn : 0 < n) (hup : Updated as s seq n s' bytes) : s'.next_ = s.next_ ∨ seq = s.next_ := by
  rcases eq_or_lt_of_le hup.next_le with he | hlt
  · exact .inl he.symm
  · right
    rcases (got_append hn).mp (hup.inv.below _ h.next_nonneg hlt) with he | hgot
    · exact he.symm
    · exact absurd h.gap hgot

namespace Sacker

/-- An arrival leaves every entry of the stack, up to those that a packet in order makes
obsolete. -/
theorem entry_of_updated {as : List (ℤ × ℤ)} {s : Sacker} {s' : Acker} {seq n bytes : ℤ}
    (h : Inv as s.toAcker) (hn : 0 < n) (hup : Updated as s.toAcker seq n s' bytes) {e : ℤ × ℤ}
    (he : Block (Got as) s.next_ e) :
    Entry (as ++ [(seq, n)]) { s with toAcker := s' } seq e := by
  have hnext := h.next_nonneg
  have he' := @Block.mono _ (Got (as ++ [(seq, n)])) _ _ he fun i hi => (got_append hn).mpr (.inr hi)
  rcases @Block.split _ _ s'.next_ _ he' (not_not.mpr hup.inv.gap) with hb | hle
  · exact .inl hb
  · have h1 := he.1
    have h2 := he.2.1
    obtain rfl := (next_eq_of_updated h hn hup).resolve_left (by omega)
    have hdup : s'.is_dup_ = false := by
      rw [← Bool.not_eq_true, hup.dup, not_not]
      exact h.gap
    exact .inr ⟨by omega, h2, hle, ⟨hdup, hnext, by show s.next_ < s'.next_; omega, hup.slots,
      fun j hj hlt => hup.inv.below j (by omega) hlt⟩⟩

/-- The packet whose ACK is delayed is the last one in order, so no entry becomes obsolete. -/
theorem block_of_delayed {as : List (ℤ × ℤ)} {s : Sacker} {s' : Acker} {seq n bytes : ℤ}
    (h : Inv as s.toAcker) (hn : 0 < n) (hup : Updated as s.toAcker seq n s' bytes)
    (hseq : seq = s'.Seqno) {e : ℤ × ℤ} (he : Block (Got as) s.next_ e) :
    Block (Got (as ++ [(seq, n)])) s'.next_ e := by
  rcases entry_of_updated h hn hup he with hb | ⟨-, -, hle, -⟩
  · exact hb
  · have h1 := he.1
    have h2 := he.2.1
    change e.2 ≤ s'.next_ at hle
    rw [Seqno] at hseq
    have := next_eq_of_updated h hn hup
    omega

end Sacker

namespace SackSink

open Sacker

/-- The packets that have arrived; a negative number is not one of a packet. -/
def Received (ops : List Op) (i : ℤ) : Prop := 0 ≤ i ∧ ∃ n delay, Op.recv i n delay ∈ ops

/-- A packet has a positive size. -/
def Op.Sized : Op → Prop
  | .recv _ numBytes _ => 0 < numBytes
  | _ => True

structure Inv (ops : List Op) (s : SackSink) (as : List (ℤ × ℤ)) : Prop where
  acker : Acker.Inv as s.toAcker
  received : Received ops = Got as
  stack : Stack (Got as) s.toSacker
  save : ∀ seq, s.save_ = some seq → seq = s.Seqno

theorem received_append_recv {ops : List Op} {as : List (ℤ × ℤ)} {seq n : ℤ} {delay : Bool}
    (h : Received ops = Got as) (hseq : 0 ≤ seq) (hn : 0 < n) :
    Received (ops ++ [.recv seq n delay]) = Got (as ++ [(seq, n)]) := by
  funext i
  apply propext
  rw [got_append hn, ← h]
  simp only [Received, List.mem_append, List.mem_singleton, Op.recv.injEq]
  constructor
  · rintro ⟨hi, n', d', hm | ⟨rfl, -, -⟩⟩
    · exact .inr ⟨hi, n', d', hm⟩
    · exact .inl rfl
  · rintro (rfl | ⟨hi, n', d', hm⟩)
    · exact ⟨hseq, n, delay, .inr ⟨rfl, rfl, rfl⟩⟩
    · exact ⟨hi, n', d', .inl hm⟩

/-- Every other event leaves what was received. -/
theorem received_append {ops : List Op} {op : Op}
    (h : ∀ seq n delay, op = .recv seq n delay → seq < 0) : Received (ops ++ [op]) = Received ops := by
  funext i
  apply propext
  simp only [Received, List.mem_append, List.mem_singleton]
  constructor
  · rintro ⟨hi, n, d, hm | he⟩
    · exact ⟨hi, n, d, hm⟩
    · have := h i n d he.symm
      omega
  · rintro ⟨hi, n, d, hm⟩
    exact ⟨hi, n, d, .inl hm⟩

theorem update_of_neg {as : List (ℤ × ℤ)} {s : Acker} (h : Acker.Inv as s) {seq n : ℤ}
    (hseq : seq < 0) : update s seq n = some ({ s with is_dup_ := true }, 0) := by
  have hnext := h.next_nonneg
  have hle := h.next_le
  have hgrow : grow seq { s with is_dup_ := false } = { s with is_dup_ := false } := by
    rw [grow, if_neg]
    show ¬ seq + 1 - s.next_ ≥ s.wndmask_
    have := h.mask.pos
    omega
  have hmax : ¬ seq > s.maxseen_ := by omega
  have hlt : seq < s.next_ := by omega
  have hin : ¬ (seq ≥ s.next_ ∧ seq ≤ s.maxseen_) := by omega
  simp [update, hgrow, hmax, hlt, hin]

/-- What the ACK of a step reports. -/
def Acks (ops : List Op) (t : SackSink) (o : Option (ℤ × List (ℤ × ℤ))) : Prop :=
  ∀ seq blocks, o = some (seq, blocks) → Reports (Received ops) t.Seqno t.base_nblocks_
    (dsacks t.generate_dsacks_ t.toSacker) seq blocks

theorem ack_spec {ops : List Op} {as : List (ℤ × ℤ)} {s : SackSink} {seq : ℤ}
    (h : Acker.Inv as s.toAcker) (hrec : Received ops = Got as)
    (hsize : s.sf_.size_ = s.base_nblocks_) (hlen : s.sf_.SFE_.length ≤ s.base_nblocks_)
    (hentries : ∀ e ∈ s.sf_.SFE_, Entry as s.toSacker seq e) (hseq : 0 ≤ seq → Got as seq) :
    Inv ops (ack s seq).1 as ∧ Acks ops (ack s seq).1 (ack s seq).2 := by
  obtain ⟨h1, h2, h3, h4⟩ := appendAck_spec s.generate_dsacks_ h hsize hlen hentries hseq
  refine ⟨⟨h1 ▸ h, hrec, h3, by simp [ack]⟩, ?_⟩
  rintro seq' blocks he
  obtain ⟨rfl, rfl⟩ := Prod.mk.inj (Option.some.inj he)
  rw [hrec]
  show Reports _ (appendAck s.generate_dsacks_ s.toSacker seq).1.Seqno
    (appendAck s.generate_dsacks_ s.toSacker seq).1.base_nblocks_
    (dsacks s.generate_dsacks_ (appendAck s.generate_dsacks_ s.toSacker seq).1) _ _
  rw [dsacks, h1, h2]
  exact h4

theorem recv_spec {ops : List Op} {as : List (ℤ × ℤ)} {s : SackSink} {seq n : ℤ} (h : Inv ops s as)
    (hn : 0 < n) (delay : Bool) : ∃ t o as', step s (.recv seq n delay) = some (t, o) ∧
      Inv (ops ++ [.recv seq n delay]) t as' ∧ Acks (ops ++ [.recv seq n delay]) t o := by
  by_cases hneg : seq < 0
  · have hrec : Received (ops ++ [.recv seq n delay]) = Got as :=
      (received_append fun _ _ _ he => by cases he; exact hneg).trans h.received
    obtain ⟨hmask, hpos, hstart, hnn, hle, hwidth, hbelow, hgap, habove, hmax, hslots⟩ := h.acker
    have hinv : Acker.Inv as { s.toAcker with is_dup_ := true } :=
      ⟨hmask, hpos, hstart, hnn, hle, hwidth, hbelow, hgap, habove, hmax, hslots⟩
    rw [step, update_of_neg h.acker hneg, Option.map_some]
    dsimp only
    split_ifs with hd
    · refine ⟨_, _, as, rfl, ⟨hinv, hrec, ⟨h.stack.size, h.stack.length, h.stack.blocks⟩, ?_⟩,
        by simp [Acks]⟩
      rintro seq' he
      exact Option.some.inj he ▸ hd.2.2
    · obtain ⟨h1, h2⟩ := @ack_spec _ as { s with toAcker := { s.toAcker with is_dup_ := true } } seq
        hinv hrec h.stack.size h.stack.length (fun e he => .inl (h.stack.blocks e he))
        (fun hge => absurd hge (not_le.mpr hneg))
      exact ⟨_, _, as, rfl, h1, h2⟩
  · obtain ⟨s', bytes, he, hup⟩ := h.acker.update (not_lt.mp hneg) hn
    have hrec := @received_append_recv _ _ _ _ delay h.received (not_lt.mp hneg) hn
    rw [step, he, Option.map_some]
    dsimp only
    split_ifs with hd
    · refine ⟨_, _, as ++ [(seq, n)], rfl, ⟨hup.inv, hrec, ⟨h.stack.size, h.stack.length, ?_⟩, ?_⟩,
        by simp [Acks]⟩
      · exact fun e he => block_of_delayed h.acker hn hup hd.2.2 (h.stack.blocks e he)
      · rintro seq' he
        exact Option.some.inj he ▸ hd.2.2
    · obtain ⟨h1, h2⟩ := @ack_spec _ _ { s with toAcker := s' } seq hup.inv hrec h.stack.size
        h.stack.length (fun e he => entry_of_updated h.acker hn hup (h.stack.blocks e he))
        (fun _ => (got_append hn).mpr (.inl rfl))
      exact ⟨_, _, _, rfl, h1, h2⟩

theorem step_spec {ops : List Op} {as : List (ℤ × ℤ)} {s : SackSink} (h : Inv ops s as) {op : Op}
    (hop : op.Sized) : ∃ t o as', step s op = some (t, o) ∧ Inv (ops ++ [op]) t as' ∧
      Acks (ops ++ [op]) t o := by
  cases op with
  | recv seq n delay => exact recv_spec h hop delay
  | timeout =>
    have hrec : Received (ops ++ [.timeout]) = Got as := (received_append (by simp)).trans h.received
    cases hs : s.save_ with
    | none =>
      refine ⟨s, none, as, by simp [step, hs], ⟨h.acker, hrec, h.stack, h.save⟩, by simp [Acks]⟩
    | some seq =>
      have hseq := h.save seq hs
      obtain ⟨h1, h2⟩ := @ack_spec _ as s seq h.acker hrec h.stack.size h.stack.length
        (fun e he => .inl (h.stack.blocks e he)) fun hge => h.acker.below seq hge (by
          rw [hseq, Seqno]
          omega)
      exact ⟨_, _, as, by simp only [step, hs], h1, h2⟩
  | setMaxSackBlocks nblocks =>
    have hrec : Received (ops ++ [.setMaxSackBlocks nblocks]) = Got as :=
      (received_append (by simp)).trans h.received
    refine ⟨_, _, as, rfl, ⟨h.acker, hrec, ⟨rfl, ?_, ?_⟩, h.save⟩, by simp [Acks]⟩
    · simp [trace, SackStack.new]
    · simp [trace, SackStack.new]
  | setGenerateDSacks b =>
    have hrec : Received (ops ++ [.setGenerateDSacks b]) = Got as :=
      (received_append (by simp)).trans h.received
    exact ⟨_, _, as, rfl, ⟨h.acker, hrec, h.stack, h.save⟩, by simp [Acks]⟩

theorem inv_new (nblocks : ℕ) (generate_dsacks : Bool) : Inv [] (new nblocks generate_dsacks) [] := by
  refine ⟨?_, ?_, ⟨rfl, ?_, ?_⟩, ?_⟩
  · exact @inv_reset (new nblocks generate_dsacks).toAcker ⟨6, le_rfl, rfl⟩
  · funext i
    simp [Received, Got, recorded]
  · simp [new, SackStack.new]
  · simp [new, SackStack.new]
  · simp [new]

/-- Every ACK after a run from a new sink, through every change of the settings. -/
theorem acks_report_received (nblocks : ℕ) (generate_dsacks : Bool) {ops : List Op} {op : Op}
    (hops : ∀ op' ∈ ops ++ [op], op'.Sized) :
    ∃ s os t o, Machine.run step (new nblocks generate_dsacks) ops = some (s, os) ∧
      step s op = some (t, o) ∧ ∀ seq blocks, o = some (seq, blocks) →
        Reports (Received (ops ++ [op])) t.Seqno t.base_nblocks_
          (dsacks t.generate_dsacks_ t.toSacker) seq blocks := by
  obtain ⟨s, os, hrun, as, hinv⟩ := Machine.run_history
    (I := fun ops _ s => ∃ as, Inv ops s as)
    (fun ops _ s op ⟨as, h⟩ hop => by
      obtain ⟨t, o, as', h1, h2, -⟩ := step_spec h hop
      exact ⟨t, o, h1, as', h2⟩)
    ⟨[], inv_new nblocks generate_dsacks⟩
    (Machine.admits_of_forall (fun op' h => hops op' (List.mem_append_left _ h)) _)
  obtain ⟨t, o, -, h1, -, h2⟩ := step_spec hinv (hops op (by simp))
  exact ⟨s, os, t, o, hrun, h1, h2⟩

theorem acks_report_received_gap : let ops : List Op := [.recv 0 1000 false, .recv 3 1000 false]
    ∃ s os t o, Machine.run step (new 3 true) ops = some (s, os) ∧
      step s (.recv 2 1000 false) = some (t, o) ∧ ∀ seq blocks, o = some (seq, blocks) →
        Reports (Received (ops ++ [.recv 2 1000 false])) t.Seqno t.base_nblocks_
          (dsacks t.generate_dsacks_ t.toSacker) seq blocks := by
  apply acks_report_received
  simp [Op.Sized]

end SackSink

end Ns2
