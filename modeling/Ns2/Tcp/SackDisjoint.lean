import Ns2.Tcp.SackBlocks

/-! The blocks of an ACK are disjoint as long as no entry of the stack is left behind that the
newest block covers up: a block for a duplicate takes the room in which one would be found. -/

namespace Ns2

open Acker

namespace Sacker

variable {as : List (ℤ × ℤ)} {s : Sacker} {seq left right : ℤ}

/-- One of the blocks ends where the other has not begun. -/
def Apart (e e' : ℤ × ℤ) : Prop := e.2 ≤ e'.1 ∨ e'.2 ≤ e.1

instance (e e' : ℤ × ℤ) : Decidable (Apart e e') := inferInstanceAs (Decidable (_ ∨ _))

/-- Every packet from `seq` to an entry of the stack was received. -/
def CoversUp (s : Sacker) (seq : ℤ) (e : ℤ × ℤ) : Prop :=
  ∀ i, min seq e.1 ≤ i → i < max (seq + 1) e.2 → s.seen_ (slot s.wndmask_ i) ≠ 0

instance (s : Sacker) (seq : ℤ) : DecidablePred (CoversUp s seq) := fun e =>
  inferInstanceAs (Decidable (∀ i, min seq e.1 ≤ i → i < max (seq + 1) e.2 → _))

/-- The entries that a loop over the stack does not reach, with room for some of the entries that it
does not cover up. -/
def unexamined (p : ℤ × ℤ → Prop) [DecidablePred p] : List (ℤ × ℤ) → ℕ → List (ℤ × ℤ)
  | l, 0 => l
  | [], _ + 1 => []
  | e :: l, room + 1 => if p e then unexamined p l (room + 1) else unexamined p l room

/-- The ACK for a duplicate above the edge, with a block for the duplicate, does not leave an entry
behind that its newest block covers up. -/
def Clears (generate_dsacks : Bool) (s : Sacker) (seq : ℤ) : Prop :=
  generate_dsacks ∧ s.is_dup_ ∧ s.Seqno < seq ∧ 2 ≤ s.base_nblocks_ →
    ∀ e ∈ (unexamined (s.CoversUp seq) s.sf_.SFE_ (s.base_nblocks_ - 2)).head?, ¬ s.CoversUp seq e

instance (g : Bool) (s : Sacker) (seq : ℤ) : Decidable (Clears g s seq) :=
  inferInstanceAs (Decidable (_ → _))

/-- The loop keeps what it does not cover up, and all that it does not reach. -/
theorem history_eq {p : ℤ × ℤ → Prop} [DecidablePred p] {maxseen : ℤ} {l : List (ℤ × ℤ)}
    (hl : ∀ e ∈ l, 0 ≤ e.1 ∧ 0 ≤ e.2 ∧ e.2 ≤ maxseen + 1)
    (hp : ∀ e ∈ l, left ≤ e.1 ∧ right ≥ e.2 ↔ p e) (room : ℕ) :
    ∃ kept, history maxseen left right l room = (kept ++ unexamined p l room, kept) ∧
      kept.length ≤ room ∧ (unexamined p l room ≠ [] → kept.length = room) ∧ ∀ e ∈ kept, ¬ p e := by
  induction l generalizing room with
  | nil =>
    refine ⟨[], ?_, by simp, ?_, by simp⟩
    · cases room <;> simp [history, unexamined]
    · cases room <;> simp [unexamined]
  | cons e l ih =>
    cases room with
    | zero => exact ⟨[], by simp [history, unexamined], le_rfl, by simp, by simp⟩
    | succ room =>
      have he := hl e (by simp)
      have hl' := fun e' he' => hl e' (List.mem_cons_of_mem e he')
      have hp' := fun e' he' => hp e' (List.mem_cons_of_mem e he')
      rw [history, unexamined, if_neg (by omega)]
      by_cases hcov : p e
      · rw [if_pos ((hp e (by simp)).mpr hcov), if_pos hcov]
        exact ih hl' hp' (room + 1)
      · obtain ⟨kept, h1, h2, h3, h4⟩ := ih hl' hp' room
        rw [if_neg ((hp e (by simp)).not.mpr hcov), if_neg hcov, h1]
        refine ⟨e :: kept, rfl, by simpa using h2, fun hne => by simp [h3 hne], ?_⟩
        exact List.forall_mem_cons.mpr ⟨hcov, h4⟩

/-- A new block takes the place of all but the first entries that the loop did not reach. -/
theorem push_eq {f : SackStack} {kept rest : List (ℤ × ℤ)} {room : ℕ} (hroom : room < f.size_)
    (hkept : kept.length ≤ room) (hrest : rest ≠ [] → kept.length = room) :
    (SackStack.push { f with SFE_ := kept ++ rest } left right).SFE_ =
      (left, right) :: (kept ++ rest.take (f.size_ - 1 - room)) := by
  rw [SackStack.push, SackStack.cnt]
  dsimp only
  rw [List.length_append]
  by_cases hr : rest = []
  · subst hr
    rw [if_neg (by simp; omega), List.take_nil]
  · have hlen := hrest hr
    have hpos := List.length_pos_of_ne_nil hr
    split_ifs with hfull
    · rw [List.take_append, List.take_of_length_le (by omega), hlen]
    · rw [List.take_of_length_le (by omega)]

/-- An entry is covered up by the newest block, or lies apart from it. -/
theorem coversUp_iff (h : Inv as s.toAcker) {e : ℤ × ℤ} (he : Block (Got as) s.next_ e)
    (hseq : s.next_ ≤ seq) (hrun : IsRun (Got as) seq (left, right)) :
    left ≤ e.1 ∧ right ≥ e.2 ↔ s.CoversUp seq e := by
  have hgot : s.CoversUp seq e ↔ ∀ i, min seq e.1 ≤ i → i < max (seq + 1) e.2 → Got as i := by
    have hnext := he.1
    have hmax := (@Entry.bounds as s seq e (.inl he) h).2.2
    have hle : seq ≤ s.maxseen_ := by
      by_contra hgt
      exact hrun.2.2.1 seq hrun.1 hrun.2.1 (h.above seq (by omega))
    refine forall_congr' fun i => forall_congr' fun hi => forall_congr' fun hlt => ?_
    rw [h.slots i (by omega) (by omega), Got]
  rw [hgot]
  obtain ⟨h1, h2, h3, h4, h5⟩ := hrun
  change left ≤ seq at h1
  change seq < right at h2
  constructor
  · rintro ⟨hleft, hright⟩ i hi hlt
    exact h3 i (by change left ≤ i; omega) (by change i < right; omega)
  · intro hall
    constructor
    · by_contra hlt
      exact h4 (hall (left - 1) (by omega) (by omega))
    · by_contra hlt
      exact h5 (hall right (by omega) (by omega))

theorem apart_of_not_coversUp (h : Inv as s.toAcker) {e : ℤ × ℤ} (he : Block (Got as) s.next_ e)
    (hseq : s.next_ ≤ seq) (hrun : IsRun (Got as) seq (left, right)) (hnot : ¬ s.CoversUp seq e) :
    Apart (left, right) e := by
  rw [← coversUp_iff h he hseq hrun] at hnot
  obtain ⟨h1, h2, h3, h4, h5⟩ := hrun
  by_contra hmeet
  rw [Apart, not_or, not_le, not_le] at hmeet
  obtain ⟨hm1, hm2⟩ : e.1 < right ∧ left < e.2 := hmeet
  rcases lt_or_ge e.1 left with hlt | hge
  · exact h4 (he.2.2 (left - 1) (by omega) (by omega))
  · rcases lt_or_ge right e.2 with hlt | hge'
    · exact h5 (he.2.2 right (by omega) hlt)
    · exact hnot ⟨hge, hge'⟩

theorem history_blocks_sublist (maxseen : ℤ) (l : List (ℤ × ℤ)) (room : ℕ) :
    (history maxseen left right l room).2.Sublist l := by
  induction l generalizing room with
  | nil => cases room <;> simp [history]
  | cons e l ih =>
    cases room with
    | zero => simp [history]
    | succ room =>
      rw [history]
      split_ifs
      · simp
      · exact (ih _).cons e
      · exact (ih _).cons_cons e

/-- An ACK takes blocks off the stack, or it reports a new block above the edge. -/
theorem appendAck_cases (g : Bool) (s : Sacker) (seq : ℤ) :
    ((appendAck g s seq).1.sf_.SFE_.Sublist s.sf_.SFE_ ∧
      ((appendAck g s seq).2.drop (dsacks g s)).Sublist s.sf_.SFE_) ∨
    dsacks g s < s.base_nblocks_ ∧ s.Seqno < seq ∧ 0 ≤ seq ∧ ∃ left right,
      right = rightEdge s (s.maxseen_ + 1 - seq).toNat seq ∧
      left = leftEdge s (right - 1 - s.Seqno).toNat (right - 1) ∧
      let r := history s.maxseen_ left right s.sf_.SFE_ (s.base_nblocks_ - (dsacks g s + 1))
      appendAck g s seq =
        ({ s with sf_ := SackStack.push { s.sf_ with SFE_ := r.1 } left right },
          dsack g s seq ++ (left, right) :: r.2) := by
  unfold appendAck
  by_cases hneg : seq < 0
  · simp [hneg]
  rw [if_neg hneg]
  by_cases hreset : s.Seqno ≥ s.maxseen_ ∧ s.sf_.cnt ≠ 0
  · simp [hreset, SackStack.reset]
  rw [if_neg hreset]
  by_cases hblocks : (s.Seqno < s.maxseen_ ∨ s.is_dup_) ∧ s.base_nblocks_ > 0
  · rw [if_pos hblocks]
    dsimp only
    rw [← dsack_length g s seq]
    by_cases hfull : (dsack g s seq).length ≥ s.base_nblocks_
    · simp [hfull]
    rw [if_neg hfull]
    by_cases hold : seq ≤ s.Seqno
    · left
      rw [if_pos hold, List.drop_left]
      exact ⟨history_sublist .., history_blocks_sublist ..⟩
    · right
      rw [if_neg hold]
      exact ⟨not_le.mp hfull, not_le.mp hold, not_lt.mp hneg, _, _, rfl, rfl, rfl⟩
  · simp [hblocks]

theorem appendAck_apart (g : Bool) (h : Inv as s.toAcker) (hsize : s.sf_.size_ = s.base_nblocks_)
    (hentries : ∀ e ∈ s.sf_.SFE_, Entry as s seq e) (hseq : 0 ≤ seq → Got as seq)
    (hapart : s.sf_.SFE_.Pairwise Apart) :
    ((appendAck g s seq).2.drop (dsacks g s)).Pairwise Apart ∧
      (s.Clears g seq → (appendAck g s seq).1.sf_.SFE_.Pairwise Apart) := by
  obtain ⟨hstack, hblocks⟩ | ⟨hroom, hlt, hpos, left, right, hright, hleft, he⟩ :=
    appendAck_cases g s seq
  · exact ⟨hapart.sublist hblocks, fun _ => hapart.sublist hstack⟩
  obtain ⟨hrun, -⟩ := newest_run h hlt (hseq hpos) hright hleft
  have habove : s.next_ ≤ seq := by
    rw [Seqno] at hlt
    omega
  have hblock : ∀ e ∈ s.sf_.SFE_, Block (Got as) s.next_ e := fun e he =>
    (hentries e he).block fun hf => hf.le.not_ge habove
  obtain ⟨kept, h1, h2, h3, h4⟩ := history_eq (p := s.CoversUp seq)
    (fun e he => (hentries e he).bounds h) (fun e he => coversUp_iff h (hblock e he) habove hrun)
    (s.base_nblocks_ - (dsacks g s + 1))
  have hsub : (kept ++ unexamined (s.CoversUp seq) s.sf_.SFE_
      (s.base_nblocks_ - (dsacks g s + 1))).Sublist s.sf_.SFE_ := by
    have := history_sublist s.maxseen_ left right s.sf_.SFE_ (s.base_nblocks_ - (dsacks g s + 1))
    rwa [h1] at this
  have hnew : ∀ e ∈ s.sf_.SFE_, ¬ s.CoversUp seq e → Apart (left, right) e := fun e he =>
    apart_of_not_coversUp h (hblock e he) habove hrun
  have hkept : ∀ e ∈ kept, Apart (left, right) e := fun e he =>
    hnew e (hsub.subset (List.mem_append_left _ he)) (h4 e he)
  rw [he]
  dsimp only
  rw [h1, ← dsack_length g s seq, List.drop_left, dsack_length]
  refine ⟨List.pairwise_cons.mpr ⟨hkept, hapart.sublist ((List.sublist_append_left ..).trans hsub)⟩,
    fun hclear => ?_⟩
  rw [push_eq (by omega) h2 h3, hsize,
    show s.base_nblocks_ - 1 - (s.base_nblocks_ - (dsacks g s + 1)) = dsacks g s by omega]
  refine List.pairwise_cons.mpr ⟨fun e he => ?_,
    hapart.sublist (((List.take_sublist _ _).append_left kept).trans hsub)⟩
  rcases List.mem_append.mp he with he | he
  · exact hkept e he
  · refine hnew e (hsub.subset (List.mem_append_right _ (List.mem_of_mem_take he))) ?_
    rw [dsacks] at he hroom
    split_ifs at he hroom with hdup
    · rw [List.take_one] at he
      exact hclear ⟨hdup.1, hdup.2, hlt, by omega⟩ e (by simpa using he)
    · simp at he

end Sacker

namespace SackSink

open Sacker

variable {ops : List Op} {as : List (ℤ × ℤ)} {s t : SackSink} {seq n : ℤ}

/-- The blocks of an ACK, behind that for a duplicate, are pairwise disjoint. -/
def DisjointBlocks (t : SackSink) (o : Option (ℤ × List (ℤ × ℤ))) : Prop :=
  ∀ r ∈ o, (r.2.drop (dsacks t.generate_dsacks_ t.toSacker)).Pairwise Apart

instance (t : SackSink) (o : Option (ℤ × List (ℤ × ℤ))) : Decidable (DisjointBlocks t o) :=
  inferInstanceAs (Decidable (∀ r ∈ o, _))

/-- An arrival leaves no entry of the stack under a block that covers it up. -/
def Clears (s : SackSink) : Op → Prop
  | .recv seq numBytes _ => ∀ r ∈ update s.toAcker seq numBytes,
      Sacker.Clears s.generate_dsacks_ { s.toSacker with toAcker := r.1 } seq
  | _ => True

instance (s : SackSink) : DecidablePred s.Clears
  | .recv seq numBytes _ => inferInstanceAs (Decidable (∀ r ∈ update s.toAcker seq numBytes, _))
  | .timeout => instDecidableTrue
  | .setMaxSackBlocks _ => instDecidableTrue
  | .setGenerateDSacks _ => instDecidableTrue

instance : DecidablePred Op.Sized
  | .recv _ numBytes _ => inferInstanceAs (Decidable (0 < numBytes))
  | .timeout => instDecidableTrue
  | .setMaxSackBlocks _ => instDecidableTrue
  | .setGenerateDSacks _ => instDecidableTrue

theorem ack_apart (h : Acker.Inv as s.toAcker) (hsize : s.sf_.size_ = s.base_nblocks_)
    (hlen : s.sf_.SFE_.length ≤ s.base_nblocks_)
    (hentries : ∀ e ∈ s.sf_.SFE_, Entry as s.toSacker seq e) (hseq : 0 ≤ seq → Got as seq)
    (hapart : s.sf_.SFE_.Pairwise Apart) :
    DisjointBlocks (ack s seq).1 (ack s seq).2 ∧
      (s.toSacker.Clears s.generate_dsacks_ seq → (ack s seq).1.sf_.SFE_.Pairwise Apart) := by
  obtain ⟨h1, -⟩ := appendAck_spec s.generate_dsacks_ h hsize hlen hentries hseq
  obtain ⟨h2, h3⟩ := appendAck_apart s.generate_dsacks_ h hsize hentries hseq hapart
  refine ⟨fun r hr => ?_, h3⟩
  obtain rfl := Option.some.inj hr
  have hdup : dsacks s.generate_dsacks_ (ack s seq).1.toSacker =
      dsacks s.generate_dsacks_ s.toSacker := by
    show dsacks s.generate_dsacks_ (appendAck s.generate_dsacks_ s.toSacker seq).1 = _
    rw [dsacks, h1]
    rfl
  show List.Pairwise Apart (List.drop (dsacks s.generate_dsacks_ (ack s seq).1.toSacker) _)
  rw [hdup]
  exact h2

/-- What holds of the stack when the ACK for a packet that has just arrived is built. -/
theorem entries_of_update (h : Inv ops s as) (hn : 0 < n) {r : Acker × ℤ}
    (hup : update s.toAcker seq n = some r) : ∃ as', Acker.Inv as' r.1 ∧
      (∀ e ∈ s.sf_.SFE_, Entry as' { s.toSacker with toAcker := r.1 } seq e) ∧
      (0 ≤ seq → Got as' seq) := by
  rcases lt_or_ge seq 0 with hneg | hpos
  · rw [update_of_neg h.acker hneg] at hup
    obtain rfl := Option.some.inj hup
    obtain ⟨hmask, hpos, hstart, hnn, hle, hwidth, hbelow, hgap, habove, hmax, hslots⟩ := h.acker
    refine ⟨as, ⟨hmask, hpos, hstart, hnn, hle, hwidth, hbelow, hgap, habove, hmax, hslots⟩, ?_,
      fun hge => absurd hge (not_le.mpr hneg)⟩
    exact fun e he => .inl (h.stack.blocks e he)
  · obtain ⟨s', bytes, he, hinv⟩ := h.acker.update hpos hn
    obtain rfl := Option.some.inj (he.symm.trans hup)
    refine ⟨_, hinv.inv, ?_, fun _ => (got_append hn).mpr (.inl rfl)⟩
    exact fun e he => entry_of_updated h.acker hn hinv (h.stack.blocks e he)

theorem step_apart (h : Inv ops s as) {op : Op} (hop : op.Sized)
    (hapart : s.sf_.SFE_.Pairwise Apart) {o : Option (ℤ × List (ℤ × ℤ))}
    (hstep : step s op = some (t, o)) :
    DisjointBlocks t o ∧ (s.Clears op → t.sf_.SFE_.Pairwise Apart) := by
  cases op with
  | recv seq n delay =>
    rw [step, Option.map_eq_some_iff] at hstep
    obtain ⟨r, hup, hr⟩ := hstep
    obtain ⟨as', h1, h2, h3⟩ := entries_of_update h hop hup
    dsimp only at hr
    split_ifs at hr with hd
    · obtain ⟨rfl, rfl⟩ := Prod.mk.inj hr
      exact ⟨by simp [DisjointBlocks], fun _ => hapart⟩
    · obtain ⟨h4, h5⟩ := @ack_apart as' { s with toAcker := r.1 } seq h1 h.stack.size h.stack.length
        h2 h3 hapart
      rw [hr] at h4 h5
      exact ⟨h4, fun hclear => h5 (hclear r hup)⟩
  | timeout =>
    cases hs : s.save_ with
    | none =>
      simp only [step, hs, Option.some.injEq, Prod.mk.injEq] at hstep
      obtain ⟨rfl, rfl⟩ := hstep
      exact ⟨by simp [DisjointBlocks], fun _ => hapart⟩
    | some seq =>
      simp only [step, hs, Option.some.injEq] at hstep
      have hseq := h.save seq hs
      obtain ⟨h4, h5⟩ := @ack_apart as s seq h.acker h.stack.size h.stack.length
        (fun e he => .inl (h.stack.blocks e he)) (fun hge => h.acker.below seq hge (by
          rw [hseq, Seqno]
          omega)) hapart
      rw [hstep] at h4 h5
      exact ⟨h4, fun _ => h5 fun hc => absurd hc.2.2.1 (by rw [hseq]; exact lt_irrefl _)⟩
  | setMaxSackBlocks nblocks =>
    obtain ⟨rfl, rfl⟩ := Prod.mk.inj (Option.some.inj hstep)
    exact ⟨by simp [DisjointBlocks], fun _ => by simp [trace, SackStack.new]⟩
  | setGenerateDSacks b =>
    obtain ⟨rfl, rfl⟩ := Prod.mk.inj (Option.some.inj hstep)
    exact ⟨by simp [DisjointBlocks], fun _ => hapart⟩

/-- Every ACK, through every change of the settings, as long as no arrival before it has left an
entry of the stack under a block that covers it up. -/
theorem blocks_disjoint (nblocks : ℕ) (generate_dsacks : Bool) {ops : List Op} {op : Op}
    (hops : Machine.Admits step (fun s op => op.Sized ∧ s.Clears op)
      (new nblocks generate_dsacks) ops) (hop : op.Sized) : ∃ s os t o,
      Machine.run step (new nblocks generate_dsacks) ops = some (s, os) ∧
        step s op = some (t, o) ∧ DisjointBlocks t o := by
  obtain ⟨s, os, hrun, ⟨as, hinv⟩, hapart⟩ := Machine.run_history
    (I := fun ops _ s => (∃ as, Inv ops s as) ∧ s.sf_.SFE_.Pairwise Apart)
    (fun ops _ s op ⟨⟨as, h⟩, hapart⟩ hok => by
      obtain ⟨t, o, as', h1, h2, -⟩ := step_spec h hok.1
      exact ⟨t, o, h1, ⟨as', h2⟩, (step_apart h hok.1 hapart h1).2 hok.2⟩)
    ⟨⟨[], inv_new nblocks generate_dsacks⟩, by simp [new, SackStack.new]⟩ hops
  obtain ⟨t, o, -, h1, -⟩ := step_spec hinv hop
  exact ⟨s, os, t, o, hrun, h1, (step_apart hinv hop hapart h1).1⟩

theorem blocks_disjoint_duplicate : let ops : List Op :=
      [.recv 10 1000 false, .recv 20 1000 false, .recv 20 1000 false]
    ∃ s os t o, Machine.run step (new 3 true) ops = some (s, os) ∧
      step s (.recv 11 1000 false) = some (t, o) ∧ DisjointBlocks t o :=
  blocks_disjoint 3 true (by decide +kernel) (by decide)

/-- A duplicate of packet 20, which is reported behind packet 10. -/
theorem blocks_overlap : ¬ ∀ (nblocks : ℕ) (generate_dsacks : Bool) (ops : List Op) (op : Op),
    (∀ op' ∈ ops ++ [op], op'.Sized) → ∃ s os t o,
      Machine.run step (new nblocks generate_dsacks) ops = some (s, os) ∧
        step s op = some (t, o) ∧ DisjointBlocks t o := by
  intro hall
  obtain ⟨s, os, t, o, hrun, hstep, h⟩ := hall 3 true
    [.recv 20 1000 false, .recv 10 1000 false, .recv 20 1000 false] (.recv 11 1000 false)
    (by decide)
  have hlast : ∀ r ∈ Machine.run step (new 3 true)
      [.recv 20 1000 false, .recv 10 1000 false, .recv 20 1000 false],
      ∀ u ∈ step r.1 (.recv 11 1000 false), ¬ DisjointBlocks u.1 u.2 := by decide +kernel
  exact hlast _ hrun _ hstep h

end SackSink

end Ns2
