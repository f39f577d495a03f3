import Ns2.Lib.RingBuffer
import Ns2.Tcp.ScoreBoardRH

/-! What the rate-halving scoreboard has been told: the packets it offers for retransmission are
above the acknowledgement and were not reported by a block. -/

namespace Ns2.ScoreBoardRH

variable {s s' : ScoreBoardRH} {S : Set ℤ} {lo hi i a d : ℤ}

/-- The last acknowledgement, and the packets that blocks have reported since the board was last
cleared. -/
structure Report where
  last_ack : ℤ
  sacked : Set ℤ

/-- The packets of the blocks. -/
def covered (sacks : List (ℤ × ℤ)) : Set ℤ := {i | ∃ b ∈ sacks, b.1 ≤ i ∧ i < b.2}

/-- What is known after an operation. A timeout takes the report of the first packet back, in case
of a renege. -/
def note (s : ScoreBoardRH) (t : Report) : Op → Report
  | .updateScoreBoard last_ack sacks _ => ⟨last_ack, t.sacked ∪ covered sacks⟩
  | .markRetran _ _ _ => t
  | .timeoutScoreBoard _ _ =>
    if s.length_ = 0 then t else { t with sacked := t.sacked \ {s.firstSeq} }
  | .clearScoreBoard => { t with sacked := ∅ }

/-- The acknowledgement does not decrease. -/
def Rising (t : Report) : Op → Prop
  | .updateScoreBoard last_ack _ _ => t.last_ack ≤ last_ack
  | _ => True

/-- An acknowledgement beyond the last entry of the board has no block that creates entries behind
it. -/
def InTouch (s : ScoreBoardRH) : Op → Prop
  | .updateScoreBoard last_ack sacks _ =>
    s.length_ = 0 ∨ last_ack ≤ s.lastSeq ∨ ∀ b ∈ sacks, b.2 ≤ s.lastSeq + 1
  | _ => True

instance (t : Report) : DecidablePred (Rising t)
  | .updateScoreBoard last_ack _ _ => inferInstanceAs (Decidable (t.last_ack ≤ last_ack))
  | .markRetran _ _ _ => instDecidableTrue
  | .timeoutScoreBoard _ _ => instDecidableTrue
  | .clearScoreBoard => instDecidableTrue

instance (s : ScoreBoardRH) : DecidablePred s.InTouch
  | .updateScoreBoard last_ack sacks _ => inferInstanceAs (Decidable
      (s.length_ = 0 ∨ last_ack ≤ s.lastSeq ∨ ∀ b ∈ sacks, b.2 ≤ s.lastSeq + 1))
  | .markRetran _ _ _ => instDecidableTrue
  | .timeoutScoreBoard _ _ => instDecidableTrue
  | .clearScoreBoard => instDecidableTrue

/-! ### The loops -/

theorem loop_invariant {α : Type*} {body : ℤ → α → α} {I : ℤ → α → Prop} {n : ℕ} {x : α}
    (hstep : ∀ j y, lo ≤ j → j < lo + n → I j y → I (j + 1) (body j y)) (h : I lo x) :
    I (lo + n) (loop body n lo x) := by
  induction n generalizing lo x with
  | zero => simpa [loop] using h
  | succ n ih =>
    have := @ih (lo + 1) (body lo x)
      (fun j y hj hlt hI => hstep j y (by omega) (by push_cast; omega) hI)
      (hstep lo x le_rfl (by push_cast; omega) h)
    rwa [show lo + ((n + 1 : ℕ) : ℤ) = lo + 1 + n by push_cast; ring]

/-- Nothing happens to the nodes but that blocks cover them. -/
structure Keeps (s s' : ScoreBoardRH) : Prop where
  first : s'.first_ = s.first_
  length : s'.length_ = s.length_
  seq_no : ∀ k, (s'.SBN k).seq_no_ = (s.SBN k).seq_no_
  ack_flag : ∀ k, (s'.SBN k).ack_flag_ = (s.SBN k).ack_flag_
  sack_flag : ∀ k, (s.SBN k).sack_flag_ = true → (s'.SBN k).sack_flag_ = true

theorem Keeps.refl (s : ScoreBoardRH) : Keeps s s :=
  ⟨rfl, rfl, fun _ => rfl, fun _ => rfl, fun _ h => h⟩

theorem Keeps.trans {s'' : ScoreBoardRH} (h : Keeps s s') (h' : Keeps s' s'') : Keeps s s'' :=
  ⟨h'.first.trans h.first, h'.length.trans h.length, fun k => (h'.seq_no k).trans (h.seq_no k),
    fun k => (h'.ack_flag k).trans (h.ack_flag k), fun k hk => h'.sack_flag k (h.sack_flag k hk)⟩

theorem SBNI_store_self (i : ℤ) (node : ScoreBoardNodeRH) (s : ScoreBoardRH) :
    (store i node s).SBNI i = node := by
  simp [SBNI, store]

theorem length_store (i : ℤ) (node : ScoreBoardNodeRH) (s : ScoreBoardRH) :
    (store i node s).length_ = s.length_ := rfl

theorem SBNI_store_of_ne {j : ℤ} (h : slot j ≠ slot i) (node : ScoreBoardNodeRH)
    (s : ScoreBoardRH) : (store i node s).SBNI j = s.SBNI j := by
  simp [SBNI, store, h]

theorem keeps_store {node : ScoreBoardNodeRH} (hf : s'.first_ = s.first_)
    (hl : s'.length_ = s.length_) (hs : s'.SBN = s.SBN)
    (hseq : node.seq_no_ = (s.SBNI i).seq_no_) (hack : node.ack_flag_ = (s.SBNI i).ack_flag_)
    (hsack : (s.SBNI i).sack_flag_ = true → node.sack_flag_ = true) :
    Keeps s (store i node s') := by
  refine ⟨hf, hl, fun k => ?_, fun k => ?_, fun k => ?_⟩ <;>
    by_cases hk : k = slot i <;> simp_all [store, SBNI]

theorem keeps_loop {body : ℤ → ScoreBoardRH → ScoreBoardRH} (h : ∀ j s, Keeps s (body j s)) (n : ℕ)
    (lo : ℤ) (s : ScoreBoardRH) : Keeps s (loop body n lo s) :=
  loop_invariant (I := fun _ s' => Keeps s s') (fun j s' _ _ hs => hs.trans (h j s')) (.refl s)

theorem keeps_countSegment (i : ℤ) (s : ScoreBoardRH) : Keeps s (countSegment i s) := by
  rw [countSegment]
  split_ifs
  · exact keeps_store rfl rfl rfl rfl rfl id
  · exact .refl s

theorem keeps_timeoutSegment (numdupacks i : ℤ) (s : ScoreBoardRH) :
    Keeps s (timeoutSegment numdupacks i s) := by
  rw [timeoutSegment]
  split_ifs
  · exact keeps_store rfl rfl rfl rfl rfl id
  · exact .refl s

theorem keeps_countHoles (sack_max : ℤ) (s : ScoreBoardRH) : Keeps s (countHoles sack_max s) := by
  rw [countHoles]
  split_ifs
  · exact keeps_loop keeps_countSegment _ _ s
  · exact .refl s

theorem keeps_checkSegment (sack_max i : ℤ) (r : ScoreBoardRH × ℤ) :
    Keeps r.1 (checkSegment sack_max i r).1 := by
  by_cases h : (r.1.SBNI i).retran_ ∧ (r.1.SBNI i).snd_nxt_ < sack_max
  · rw [checkSegment, if_pos h]
    exact keeps_store rfl rfl rfl rfl rfl id
  · rw [checkSegment, if_neg h]
    exact .refl r.1

theorem keeps_CheckSndNxt (sack_max : ℤ) (s : ScoreBoardRH) :
    Keeps s (CheckSndNxt sack_max s).1 := by
  rw [CheckSndNxt]
  split_ifs
  · exact loop_invariant (I := fun _ (r : ScoreBoardRH × ℤ) => Keeps s r.1)
      (fun j r _ _ h => h.trans (keeps_checkSegment sack_max j r)) (.refl s)
  · exact .refl s

theorem keeps_MarkRetran (retran_seqno snd_nxt rh_id : ℤ) (s : ScoreBoardRH) :
    Keeps s (MarkRetran s retran_seqno snd_nxt rh_id) :=
  keeps_store rfl rfl rfl rfl rfl id

theorem keeps_coverSegment (rh_id : ℤ) (b : ℤ × ℤ) (i : ℤ) (r : ScoreBoardRH × ℤ) :
    Keeps r.1 (coverSegment rh_id b i r).1 := by
  by_cases h : (r.1.SBNI i).seq_no_ ≥ b.1 ∧ (r.1.SBNI i).seq_no_ < b.2
  · rw [coverSegment, if_pos h]
    exact keeps_store rfl rfl rfl rfl rfl fun _ => rfl
  · rw [coverSegment, if_neg h]
    exact .refl r.1

/-! ### The window -/

theorem slot_ne {j : ℤ} (hi : 0 ≤ i) (hj : 0 ≤ j) (hne : i ≠ j) (hij : i < j + SBSIZE)
    (hji : j < i + SBSIZE) : slot i ≠ slot j := fun he =>
  hne (RingBuffer.toNat_mod_inj hi hj hij hji he)

/-- The ring holds the nodes of the packets from `lo` up to `hi`, and `S` are those that blocks have
reported, none of them beyond. -/
structure Window (lo hi : ℤ) (S : Set ℤ) (s : ScoreBoardRH) : Prop where
  nonneg : 0 ≤ lo
  le : lo ≤ hi
  length : s.length_ = hi - lo
  fits : hi - lo < SBSIZE
  first : lo < hi → s.first_ = lo % SBSIZE
  seq_no : ∀ i, lo ≤ i → i < hi → (s.SBNI i).seq_no_ = i
  sacked : ∀ i ∈ S, lo ≤ i → i < hi ∧ (s.SBNI i).sack_flag_ = true

/-- A window while an acknowledgement is processed: the place of the next node is known, and the
number of the one before it. -/
structure Open (lo hi : ℤ) (S : Set ℤ) (s : ScoreBoardRH) : Prop extends Window lo hi S s where
  place : s.first_ = lo % SBSIZE
  last : s.lastSeq = hi - 1

theorem slot_mod (i : ℤ) (hi : 0 ≤ i) : slot (i % SBSIZE) = slot i := by
  have h : ((i.toNat % SBSIZE : ℕ) : ℤ) = i % SBSIZE := by
    rw [Int.natCast_mod, Int.toNat_of_nonneg hi]
  rw [slot, slot, ← h, Int.toNat_natCast, Nat.mod_mod]

theorem Window.firstSeq_eq (h : Window lo hi S s) (hlt : lo < hi) : s.firstSeq = lo := by
  rw [firstSeq, SBNI, h.first hlt, slot_mod lo h.nonneg]
  exact h.seq_no lo le_rfl hlt

/-- Where the last node is looked for. -/
theorem slot_last (hpos : 0 < hi) (hle : lo ≤ hi) :
    slot (lo % SBSIZE + (hi - lo) + SBSIZE - 1) = slot (hi - 1) := by
  have hmod := Int.emod_nonneg lo (show ((SBSIZE : ℕ) : ℤ) ≠ 0 by decide)
  have hsize : ((SBSIZE : ℕ) : ℤ) = 1024 := rfl
  rw [← slot_mod _ (by omega), ← slot_mod (hi - 1) (by omega), hsize] at *
  congr 1
  omega

theorem Window.open (h : Window lo hi S s) (hlt : lo < hi) : Open lo hi S s := by
  have hnn := h.nonneg
  refine ⟨h, h.first hlt, ?_⟩
  rw [lastSeq, SBNI, h.first hlt, h.length, slot_last (by omega) h.le]
  exact h.seq_no (hi - 1) (by omega) (by omega)

theorem Window.keeps (h : Window lo hi S s) (k : Keeps s s') : Window lo hi S s' :=
  ⟨h.nonneg, h.le, k.length.trans h.length, h.fits, fun hlt => k.first.trans (h.first hlt),
    fun i hi hlt => (k.seq_no _).trans (h.seq_no i hi hlt),
    fun i hi hlt => ⟨(h.sacked i hi hlt).1, k.sack_flag _ (h.sacked i hi hlt).2⟩⟩

theorem Open.keeps (h : Open lo hi S s) (k : Keeps s s') : Open lo hi S s' := by
  refine ⟨h.toWindow.keeps k, k.first.trans h.place, ?_⟩
  rw [lastSeq, k.first, k.length]
  exact (k.seq_no _).trans h.last

/-! ### New entries -/

theorem Window.append (h : Window lo hi S s) (hplace : s.first_ = lo % SBSIZE)
    (ha : append hi s = some s') : Open lo (hi + 1) S s' := by
  have hnn := h.nonneg
  have hle := h.le
  have hlen := h.length
  rw [ScoreBoardRH.append] at ha
  split_ifs at ha with hfull
  obtain rfl := Option.some.inj ha
  have hfits : hi + 1 - lo < SBSIZE := by omega
  have hother : ∀ i, lo ≤ i → i < hi → (store hi ⟨hi, false, false, false, 0, 0, 0⟩
      { s with length_ := s.length_ + 1 }).SBNI i = s.SBNI i := by
    intro i hi' hlt
    rw [SBNI_store_of_ne (slot_ne (by omega) (by omega) (by omega) (by omega) (by omega))]
    rfl
  refine ⟨⟨hnn, by omega, ?_, hfits, fun _ => hplace, fun i hi' hlt => ?_, fun i hi' hlt => ?_⟩,
    hplace, ?_⟩
  · show s.length_ + 1 = hi + 1 - lo
    omega
  · by_cases he : i = hi
    · rw [he, SBNI_store_self]
    · rw [hother i hi' (by omega)]
      exact h.seq_no i hi' (by omega)
  · obtain ⟨h1, h2⟩ := h.sacked i hi' hlt
    rw [hother i hlt h1]
    exact ⟨by omega, h2⟩
  · have hslot : slot (s.first_ + (s.length_ + 1) + SBSIZE - 1) = slot hi := by
      rw [hplace, hlen, show hi - lo + 1 = hi + 1 - lo by ring, slot_last (by omega) (by omega),
        add_sub_cancel_right]
    show ((store hi _ _).SBN (slot (s.first_ + (s.length_ + 1) + SBSIZE - 1))).seq_no_ = _
    rw [hslot, add_sub_cancel_right]
    exact congrArg ScoreBoardNodeRH.seq_no_ (SBNI_store_self hi _ _)

theorem Open.extend {n : ℕ} (h : Open lo hi S s) (he : extend n hi s = some s') :
    Open lo (hi + n) S s' := by
  induction n generalizing hi s with
  | zero =>
    obtain rfl := Option.some.inj he
    simpa using h
  | succ n ih =>
    obtain ⟨s₁, h1, h2⟩ := Option.bind_eq_some_iff.mp he
    have := ih (h.append h.place h1) h2
    rwa [show hi + ((n + 1 : ℕ) : ℤ) = hi + 1 + n by push_cast; ring]

theorem Open.extendTo {r : ℤ} (h : Open lo hi S s) (he : extendTo r s = some s') :
    Open lo (max hi r) S s' := by
  rw [ScoreBoardRH.extendTo, h.last, sub_add_cancel] at he
  split_ifs at he with hgt
  · have := h.extend he
    rwa [show hi + ((r - hi).toNat : ℤ) = max hi r by omega] at this
  · obtain rfl := Option.some.inj he
    rwa [max_eq_left (by omega)]

/-- If there is no board, one is created for the packet behind the acknowledgement. -/
theorem Window.create {a₀ : ℤ} (h : Window (a₀ + 1) hi S s) (ha : a₀ ≤ a)
    (hc : create a s = some s') :
    ∃ lo' hi', Open lo' hi' S s' ∧ lo' < hi' ∧ lo' ≤ a + 1 ∧
      (hi' < a + 1 → hi' = hi ∧ s.length_ ≠ 0) := by
  have hnn := h.nonneg
  have hle := h.le
  have hlen := h.length
  rw [ScoreBoardRH.create] at hc
  split_ifs at hc with hempty
  · have hw : Window (a + 1) (a + 1) S { s with first_ := (a + 1) % SBSIZE } := by
      refine ⟨by omega, le_rfl, ?_, by simp [SBSIZE], fun hlt => absurd hlt (lt_irrefl _),
        fun i hi hlt => absurd hi (by omega), fun i hi hle => ?_⟩
      · show s.length_ = a + 1 - (a + 1)
        omega
      · have := (h.sacked i hi (by omega)).1
        omega
    exact ⟨a + 1, a + 1 + 1, hw.append rfl hc, by omega, le_rfl, fun hlt => absurd hlt (by omega)⟩
  · obtain rfl := Option.some.inj hc
    exact ⟨a₀ + 1, hi, h.open (by omega), by omega, by omega, fun _ => ⟨rfl, hempty⟩⟩

/-! ### The acknowledgement -/

/-- The first packet is acknowledged. -/
theorem Open.consume {node : ScoreBoardNodeRH} (h : Open lo hi S s) (hlt : lo < hi)
    (hf : s'.first_ = (s.first_ + 1) % SBSIZE) (hl : s'.length_ = s.length_ - 1)
    (hs : s'.SBN = s.SBN) (hnode : node.seq_no_ = lo) : Open (lo + 1) hi S (store lo node s') := by
  have hnn := h.nonneg
  have hlen := h.length
  have hfits := h.fits
  have hplace : s'.first_ = (lo + 1) % SBSIZE := by rw [hf, h.place, Int.emod_add_emod]
  have hother : ∀ i, lo + 1 ≤ i → i < hi → (store lo node s').SBNI i = s.SBNI i := by
    intro i hi' hlt
    rw [SBNI_store_of_ne (slot_ne (by omega) (by omega) (by omega) (by omega) (by omega)), SBNI, hs,
      SBNI]
  refine ⟨⟨by omega, by omega, ?_, by omega, fun _ => hplace, fun i hi' hlt => ?_,
    fun i hi' hle => ?_⟩, hplace, ?_⟩
  · show s'.length_ = hi - (lo + 1)
    omega
  · rw [hother i hi' hlt]
    exact h.seq_no i (by omega) hlt
  · obtain ⟨h1, h2⟩ := h.sacked i hi' (by omega)
    rw [hother i hle h1]
    exact ⟨h1, h2⟩
  · show ((store lo node s').SBNI (s'.first_ + s'.length_ + SBSIZE - 1)).seq_no_ = hi - 1
    rw [hplace, hl, hlen, show hi - lo - 1 = hi - (lo + 1) by ring, SBNI,
      slot_last (by omega) (by omega)]
    rcases eq_or_ne (hi - 1) lo with he | hne
    · rw [he]
      exact (congrArg ScoreBoardNodeRH.seq_no_ (SBNI_store_self lo node s')).trans hnode
    · exact (congrArg ScoreBoardNodeRH.seq_no_ (hother (hi - 1) (by omega) (by omega))).trans
        (h.seq_no (hi - 1) (by omega) (by omega))

theorem Open.advance {rh_id : ℤ} {n : ℕ} {r : ScoreBoardRH × ℤ} (h : Open lo hi S s) (hlt : lo < hi)
    (hn : lo + n = a + 1) (he : advance a rh_id n lo (s, d) = some r) :
    Open (min (a + 1) hi) hi S r.1 := by
  induction n generalizing lo s d with
  | zero =>
    obtain rfl := Option.some.inj he
    rwa [min_eq_left (by omega), show a + 1 = lo by simpa using hn.symm]
  | succ n ih =>
    have hlen := h.length
    have hseq := h.seq_no lo le_rfl hlt
    rw [ScoreBoardRH.advance, if_pos (by rw [hseq]; omega)] at he
    by_cases hassert : s.first_ ≠ lo % SBSIZE ∨ s.length_ - 1 < 0
    · rw [if_pos hassert] at he
      cases he
    · rw [if_neg hassert] at he
      by_cases hlast : s.length_ - 1 = 0
      · simp only [length_store, hlast, ↓reduceIte] at he
        obtain rfl := Option.some.inj he
        rw [show min (a + 1) hi = lo + 1 by omega]
        exact h.consume hlt rfl hlast.symm rfl hseq
      · simp only [length_store, hlast, ↓reduceIte] at he
        refine ih ?_ (by omega) (by push_cast at hn; omega) he
        exact h.consume hlt rfl rfl rfl hseq

theorem Open.advanceTo {rh_id : ℤ} {r : ScoreBoardRH × ℤ} (h : Open lo hi S s) (hlt : lo < hi)
    (ha : lo ≤ a + 1) (he : advanceTo a rh_id s = some r) : Open (min (a + 1) hi) hi S r.1 := by
  rw [ScoreBoardRH.advanceTo, h.firstSeq_eq hlt] at he
  split_ifs at he with hle
  · exact h.advance hlt (by omega) he
  · obtain rfl := Option.some.inj he
    rwa [show min (a + 1) hi = lo by omega]

/-! ### Blocks -/

theorem keeps_cover (rh_id : ℤ) (b : ℤ × ℤ) (n : ℕ) (lo : ℤ) (r : ScoreBoardRH × ℤ) :
    Keeps r.1 (loop (coverSegment rh_id b) n lo r).1 :=
  loop_invariant (I := fun _ (r' : ScoreBoardRH × ℤ) => Keeps r.1 r'.1)
    (fun j r' _ _ h => h.trans (keeps_coverSegment rh_id b j r')) (.refl r.1)

/-- The loop over a block marks every packet that lies in it. -/
theorem Open.cover {rh_id : ℤ} {b : ℤ × ℤ} (h : Open lo hi S s) (hr : b.2 ≤ hi) :
    ∀ i, lo ≤ i → b.1 ≤ i → i < b.2 →
      ((loop (coverSegment rh_id b) (b.2 - lo).toNat lo (s, d)).1.SBNI i).sack_flag_ = true := by
  have hinv := @loop_invariant lo _ (coverSegment rh_id b)
    (fun j r => Keeps s r.1 ∧ ∀ i, lo ≤ i → i < j → b.1 ≤ i → i < b.2 →
      (r.1.SBNI i).sack_flag_ = true) (b.2 - lo).toNat (s, d) ?_ ⟨.refl s, fun i _ _ => by omega⟩
  · intro i hi' hl hlt
    exact hinv.2 i hi' (by omega) hl hlt
  · rintro j r hj hjn ⟨hk, hmarked⟩
    have hstep := keeps_coverSegment rh_id b j r
    refine ⟨hk.trans hstep, fun i hi' hij hl hlt => ?_⟩
    rcases eq_or_lt_of_le (show i ≤ j by omega) with rfl | hij
    · have hseq : (r.1.SBNI i).seq_no_ = i :=
        (hk.seq_no _).trans (h.seq_no i hi' (by omega))
      rw [coverSegment, hseq, if_pos ⟨hl, hlt⟩]
      simp [SBNI_store_self]
    · exact hstep.sack_flag _ (hmarked i hi' hij hl hlt)

theorem Open.sackBlock {rh_id : ℤ} {b : ℤ × ℤ} {r : ScoreBoardRH × ℤ} (h : Open lo hi S s)
    (he : ScoreBoardRH.sackBlock rh_id (s, d) b = some r) :
    Open lo (max hi b.2) (S ∪ {i | b.1 ≤ i ∧ i < b.2}) r.1 := by
  obtain ⟨s₁, h1, rfl⟩ := Option.map_eq_some_iff.mp he
  have ho := h.extendTo h1
  have hk := keeps_cover rh_id b (b.2 - s₁.firstSeq).toNat s₁.firstSeq (s₁, d)
  have hkept := ho.keeps hk
  refine ⟨⟨hkept.nonneg, hkept.le, hkept.length, hkept.fits, hkept.first, hkept.seq_no, ?_⟩,
    hkept.place, hkept.last⟩
  rintro i (hi' | ⟨hl, hlt⟩) hle
  · exact hkept.sacked i hi' hle
  · have hopen : lo < max hi b.2 := by omega
    refine ⟨by omega, ?_⟩
    rw [ho.firstSeq_eq hopen]
    exact ho.cover (le_max_right _ _) i hle hl hlt

theorem Open.sackBlocks {rh_id : ℤ} {sacks : List (ℤ × ℤ)} {r r' : ScoreBoardRH × ℤ}
    (h : Open lo hi S r.1) (he : sacks.foldlM (ScoreBoardRH.sackBlock rh_id) r = some r') :
    ∃ hi', Open lo hi' (S ∪ covered sacks) r'.1 ∧ hi ≤ hi' ∧
      ((∀ b ∈ sacks, b.2 ≤ hi) → hi' = hi) := by
  induction sacks generalizing hi S r with
  | nil =>
    obtain rfl := Option.some.inj he
    exact ⟨hi, by simpa [covered] using h, le_rfl, fun _ => rfl⟩
  | cons b sacks ih =>
    rw [List.foldlM_cons, Option.bind_eq_bind, Option.bind_eq_some_iff] at he
    obtain ⟨r₁, h1, h2⟩ := he
    obtain ⟨hi', ho, hle, hmax⟩ := ih (h.sackBlock h1) h2
    refine ⟨hi', ?_, by omega, fun hall => ?_⟩
    · convert ho using 1
      ext i
      simp [covered, or_assoc]
    · have hb := hall b (by simp)
      have := hmax fun b' hb' => by
        have := hall b' (List.mem_cons_of_mem b hb')
        omega
      omega

/-! ### Operations -/

theorem Window.update {a₀ rh_id : ℤ} {sacks : List (ℤ × ℤ)} {r : ScoreBoardRH × ℤ}
    (h : Window (a₀ + 1) hi S s) (ha : a₀ ≤ a)
    (hok : s.length_ = 0 ∨ a ≤ s.lastSeq ∨ ∀ b ∈ sacks, b.2 ≤ s.lastSeq + 1)
    (he : UpdateScoreBoard s a sacks rh_id = some r) :
    ∃ hi', Window (a + 1) hi' (S ∪ covered sacks) r.1 := by
  have hnn := h.nonneg
  have hlen := h.length
  rw [UpdateScoreBoard] at he
  split_ifs at he with hnone
  · obtain ⟨rfl, hempty⟩ := hnone
    obtain rfl := Option.some.inj he
    refine ⟨a + 1, by omega, le_rfl, by simpa using hempty, by simp [SBSIZE],
      fun hlt => absurd hlt (lt_irrefl _), fun i hi hlt => absurd hi (by omega), fun i hi hle => ?_⟩
    have := (h.sacked i (by simpa [covered] using hi) (by omega)).1
    omega
  · obtain ⟨s₁, h1, he⟩ := Option.bind_eq_some_iff.mp he
    obtain ⟨r₂, h2, he⟩ := Option.bind_eq_some_iff.mp he
    obtain ⟨r₃, h3, rfl⟩ := Option.map_eq_some_iff.mp he
    obtain ⟨lo', hi₁, ho, hlt, hle, hbehind⟩ := h.create ha h1
    obtain ⟨hi', ho', hle', hmax⟩ := (ho.advanceTo hlt hle h2).sackBlocks h3
    have hw := fun m =>
      (ho'.keeps ((keeps_countHoles m r₃.1).trans (keeps_CheckSndNxt m _))).toWindow
    rcases le_or_gt (a + 1) hi₁ with hin | hout
    · rw [min_eq_left hin] at hw
      exact ⟨hi', hw _⟩
    · -- the acknowledgement lies beyond the last entry, and so do no blocks
      obtain ⟨rfl, hne⟩ := hbehind hout
      have hle₀ := h.le
      have hlast := (h.open (by omega)).last
      obtain rfl := hmax fun b hb => by
        have := (hok.resolve_left hne).resolve_left (by omega) b hb
        omega
      rw [min_eq_right hout.le] at hw
      refine ⟨a + 1, by omega, le_rfl, ?_, by simp [SBSIZE], fun hlt => absurd hlt (lt_irrefl _),
        fun i hi hlt => absurd hi (by omega), fun i hi hle => ?_⟩
      · rw [(hw _).length]
        omega
      · have := ((hw 0).sacked i hi (by omega)).1
        omega

/-- The report of the first packet may be taken back. -/
theorem Window.checkRenege (h : Window lo hi S s) (hlt : lo < hi) (numdupacks : ℤ) :
    Window lo hi (S \ {lo}) (checkRenege numdupacks s) := by
  have hnn := h.nonneg
  have hfits := h.fits
  rw [ScoreBoardRH.checkRenege, h.firstSeq_eq hlt]
  split_ifs with hcond
  · refine ⟨h.nonneg, h.le, h.length, h.fits, h.first, fun i hi' hil => ?_, fun i hi' hle => ?_⟩
    · by_cases he : i = lo
      · rw [he, SBNI_store_self]
        exact h.seq_no lo le_rfl hlt
      · rw [SBNI_store_of_ne (slot_ne (by omega) hnn he (by omega) (by omega))]
        exact h.seq_no i hi' hil
    · obtain ⟨h1, h2⟩ := h.sacked i hi'.1 hle
      rw [SBNI_store_of_ne (slot_ne (by omega) hnn hi'.2 (by omega) (by omega))]
      exact ⟨h1, h2⟩
  · exact ⟨h.nonneg, h.le, h.length, h.fits, h.first, h.seq_no, fun i hi' => h.sacked i hi'.1⟩

theorem Window.timeout {numdupacks snd_nxt : ℤ} (h : Window lo hi S s)
    (he : TimeoutScoreBoard numdupacks s snd_nxt = some s') :
    ∃ hi', Window lo hi' (if s.length_ = 0 then S else S \ {s.firstSeq}) s' := by
  have hle := h.le
  have hlen := h.length
  rw [TimeoutScoreBoard] at he
  split_ifs at he ⊢ with hempty
  · obtain rfl := Option.some.inj he
    exact ⟨hi, h⟩
  · obtain ⟨s₁, h1, rfl⟩ := Option.map_eq_some_iff.mp he
    have hlt : lo < hi := by omega
    have ho := (h.open hlt).extendTo h1
    have hw := (ho.keeps (keeps_loop (keeps_timeoutSegment numdupacks) s₁.length_.toNat s₁.firstSeq
      s₁)).toWindow
    rw [h.firstSeq_eq hlt]
    exact ⟨max hi snd_nxt, hw.checkRenege (by omega) numdupacks⟩

/-- What an operation keeps: the board starts behind the acknowledgement. -/
theorem Window.step {t : Report} {op : Op} {o : ℤ} (h : Window (t.last_ack + 1) hi t.sacked s)
    (hrising : Rising t op) (htouch : InTouch s op) (he : step s op = some (s', o)) :
    ∃ hi', Window ((note s t op).last_ack + 1) hi' (note s t op).sacked s' := by
  cases op with
  | updateScoreBoard last_ack sacks rh_id => exact h.update hrising htouch he
  | markRetran retran_seqno snd_nxt rh_id =>
    obtain ⟨rfl, rfl⟩ := Prod.mk.inj (Option.some.inj he)
    exact ⟨hi, h.keeps (keeps_MarkRetran _ _ _ s)⟩
  | timeoutScoreBoard numdupacks snd_nxt =>
    obtain ⟨s₁, h1, h2⟩ := Option.map_eq_some_iff.mp he
    obtain ⟨rfl, rfl⟩ := Prod.mk.inj h2
    obtain ⟨hi', hw⟩ := h.timeout h1
    refine ⟨hi', ?_⟩
    rw [note]
    split_ifs at hw ⊢ with hempty
    · exact hw
    · exact hw
  | clearScoreBoard =>
    obtain ⟨rfl, rfl⟩ := Prod.mk.inj (Option.some.inj he)
    have hw : Window (t.last_ack + 1) (t.last_ack + 1) ∅ (ClearScoreBoard s) :=
      ⟨h.nonneg, le_rfl, by simp [ClearScoreBoard], by simp [SBSIZE],
        fun hlt => absurd hlt (lt_irrefl _), fun i hi hlt => absurd hi (by omega),
        fun i hi => absurd hi (Set.notMem_empty i)⟩
    exact ⟨_, hw⟩

theorem Window.nextRetran (h : Window lo hi S s) (numdupacks : ℤ) {n : ℕ} (hi' : lo ≤ i)
    (hn : i + n ≤ hi) : nextRetran numdupacks s n i = -1 ∨
      lo ≤ nextRetran numdupacks s n i ∧ nextRetran numdupacks s n i ∉ S := by
  induction n generalizing i with
  | zero => exact .inl rfl
  | succ n ih =>
    rw [ScoreBoardRH.nextRetran]
    split_ifs with hcond
    · refine .inr ⟨hi', fun hmem => ?_⟩
      have := (h.sacked i hmem hi').2
      simp [this] at hcond
    · exact ih (by omega) (by push_cast at hn; omega)

/-- What `GetNextRetran` offers, if anything. -/
theorem Window.getNextRetran (h : Window lo hi S s) (numdupacks : ℤ) :
    GetNextRetran numdupacks s = -1 ∨
      lo ≤ GetNextRetran numdupacks s ∧ GetNextRetran numdupacks s ∉ S := by
  have hle := h.le
  have hlen := h.length
  rw [GetNextRetran]
  split_ifs with hempty
  · rw [h.firstSeq_eq (by omega)]
    exact h.nextRetran numdupacks le_rfl (by omega)
  · exact .inl rfl

/-- The packets offered for retransmission in every state that a run reaches, for any threshold, as
long as each acknowledgement stays in touch with the board. -/
theorem next_retran_fresh (retran_sacked : ℤ) (sbn : ℕ → ScoreBoardNodeRH) {ops : List Op}
    {s : ScoreBoardRH} {t : Report} {os : List ℤ}
    (hops : Machine.Admits (Machine.ghost step note) (fun p op => Rising p.2 op ∧ InTouch p.1 op)
      (new retran_sacked sbn, ⟨-1, ∅⟩) ops)
    (hrun : Machine.run (Machine.ghost step note) (new retran_sacked sbn, ⟨-1, ∅⟩) ops =
      some ((s, t), os)) (numdupacks : ℤ) :
    GetNextRetran numdupacks s = -1 ∨
      t.last_ack < GetNextRetran numdupacks s ∧ GetNextRetran numdupacks s ∉ t.sacked := by
  obtain ⟨hi, hw⟩ : ∃ hi, Window (t.last_ack + 1) hi t.sacked s := by
    refine Machine.run_invariant (I := fun (p : ScoreBoardRH × Report) =>
      ∃ hi, Window (p.2.last_ack + 1) hi p.2.sacked p.1) ?_ ⟨0, ?_⟩ hops hrun
    · rintro ⟨s, t⟩ op ⟨s', t'⟩ o ⟨hi, h⟩ hok he
      obtain ⟨⟨s₁, o₁⟩, h1, h2⟩ := Option.map_eq_some_iff.mp he
      obtain ⟨h3, rfl⟩ := Prod.mk.inj h2
      obtain ⟨rfl, rfl⟩ := Prod.mk.inj h3
      exact h.step hok.1 hok.2 h1
    · exact ⟨le_rfl, le_rfl, rfl, by simp [SBSIZE], fun hlt => absurd hlt (lt_irrefl _),
        fun i hi hlt => absurd hi (by simpa using hlt), fun i hi => absurd hi (Set.notMem_empty i)⟩
  exact hw.getNextRetran numdupacks

/-- An array of zeros. -/
def zeroed : ScoreBoardRH := new 0 fun _ => ⟨0, false, false, false, 0, 0, 0⟩

theorem next_retran_fresh_hole : ∃ s t os,
    Machine.run (Machine.ghost step note) (zeroed, ⟨-1, ∅⟩)
      [.updateScoreBoard 0 [(2, 3)] 0, .updateScoreBoard 1 [(4, 5)] 0] = some ((s, t), os) ∧
    (GetNextRetran 1 s = -1 ∨
      t.last_ack < GetNextRetran 1 s ∧ GetNextRetran 1 s ∉ t.sacked) := by
  have hops : Machine.Admits (Machine.ghost step note)
      (fun p op => Rising p.2 op ∧ InTouch p.1 op) (zeroed, ⟨-1, ∅⟩)
      [.updateScoreBoard 0 [(2, 3)] 0, .updateScoreBoard 1 [(4, 5)] 0] := by decide
  exact ⟨_, _, _, rfl, next_retran_fresh 0 _ hops rfl 1⟩

/-- The acknowledgement 4 takes the last entry, 2, off the board, and entry 3 is then created for
its block. -/
theorem next_retran_stale : ¬ ∀ (retran_sacked : ℤ) (sbn : ℕ → ScoreBoardNodeRH) (ops : List Op)
    (s : ScoreBoardRH) (t : Report) (os : List ℤ) (numdupacks : ℤ),
    Machine.Admits (Machine.ghost step note) (fun p op => Rising p.2 op)
      (new retran_sacked sbn, ⟨-1, ∅⟩) ops →
    Machine.run (Machine.ghost step note) (new retran_sacked sbn, ⟨-1, ∅⟩) ops =
      some ((s, t), os) →
    GetNextRetran numdupacks s = -1 ∨
      t.last_ack < GetNextRetran numdupacks s ∧ GetNextRetran numdupacks s ∉ t.sacked := by
  intro hall
  have hstale : (Machine.run (Machine.ghost step note) (zeroed, ⟨-1, ∅⟩)
      [.updateScoreBoard 0 [(2, 3)] 0, .updateScoreBoard 4 [(6, 7)] 0]).map
        (fun r => (r.1.2.last_ack, GetNextRetran 1 r.1.1)) = some (4, 3) := by decide
  obtain ⟨⟨⟨s, t⟩, os⟩, hrun, he⟩ := Option.map_eq_some_iff.mp hstale
  obtain ⟨hlast, hnext⟩ := Prod.mk.inj he
  have := hall 0 _ _ s t os 1 (by decide) hrun
  simp only at hlast hnext
  omega

end Ns2.ScoreBoardRH
