import Ns2.Tcp.SnoopWlessView

/-! The snoop agent marks an acknowledgement only if the next packet was not seen, and its ranges
are sorted and disjoint. -/

namespace Ns2

namespace SnoopWl

open RingWindow

variable {v v' : View} {seen : List ℤ} {seq ack : ℤ}

/-- The range holds the packet. -/
def Has (r : HdrSeq) (x : ℤ) : Prop := r.seq ≤ x ∧ x < r.seq + r.num

theorem exists_mem_cons {t : HdrSeq} {l : List HdrSeq} {p : HdrSeq → Prop} :
    (∃ r ∈ t :: l, p r) ↔ p t ∨ ∃ r ∈ l, p r := by simp

theorem has_dropAcked {x : ℤ} (hx : ack < x) {l : List HdrSeq} :
    (∃ r ∈ dropAcked ack l, Has r x) ↔ ∃ r ∈ l, Has r x := by
  induction l with
  | nil => rfl
  | cons t l ih =>
    rw [dropAcked]
    split_ifs with hend hseq
    · rw [ih, exists_mem_cons]
      refine (or_iff_right ?_).symm
      rintro ⟨-, hlt⟩
      omega
    · rfl
    · rw [exists_mem_cons, exists_mem_cons]
      refine or_congr_left ⟨?_, ?_⟩
      · rintro ⟨h1, h2⟩
        dsimp only at h1 h2
        exact ⟨by omega, by omega⟩
      · rintro ⟨h1, h2⟩
        exact ⟨show ack + 1 ≤ x by omega, show x < ack + 1 + (t.num - (ack - t.seq + 1)) by omega⟩

/-- What an acknowledgement leaves begins where it did, or behind the acknowledgement. -/
theorem dropAcked_mem {l : List HdrSeq} {r : HdrSeq} (hr : r ∈ dropAcked ack l) :
    r ∈ l ∨ r.seq = ack + 1 ∧ 0 < r.num := by
  induction l with
  | nil => exact absurd hr List.not_mem_nil
  | cons t l ih =>
    rw [dropAcked] at hr
    split_ifs at hr with hend hseq
    · exact (ih hr).imp_left (List.mem_cons_of_mem t)
    · exact .inl hr
    · rcases List.mem_cons.mp hr with rfl | hr
      · exact .inr ⟨rfl, show 0 < t.num - (ack - t.seq + 1) by omega⟩
      · exact .inl (List.mem_cons_of_mem t hr)

theorem dropAcked_order {last : ℤ} (hack : last ≤ ack) {l : List HdrSeq}
    (h : l.Pairwise fun r r' => r.seq ≤ max r'.seq (last + 1)) :
    (dropAcked ack l).Pairwise fun r r' => r.seq ≤ max r'.seq (ack + 1) := by
  have hmono : ∀ {r r' : HdrSeq}, r.seq ≤ max r'.seq (last + 1) → r.seq ≤ max r'.seq (ack + 1) :=
    fun h => by omega
  induction l with
  | nil => exact .nil
  | cons t l ih =>
    rw [dropAcked]
    split_ifs with hend hseq
    · exact ih h.of_cons
    · exact h.imp hmono
    · exact List.pairwise_cons.mpr ⟨fun _ _ => le_max_right _ _, h.of_cons.imp hmono⟩

/-- Every packet above the last acknowledgement is in some range, and the ranges from the tail on
begin in order as far as acknowledgements to come can tell. -/
structure View.Covers (v : View) (seen : List ℤ) : Prop where
  num : ∀ r ∈ v.used ++ v.free, 0 ≤ r.num
  below : v.empty = true → ∀ x ∈ seen, x ≤ v.lastAck
  cover : v.empty = false → ∀ x ∈ seen, v.lastAck < x → ∃ r ∈ v.used, Has r x
  order : v.empty = false → v.used.Pairwise fun r r' => r.seq ≤ max r'.seq (v.lastAck + 1)
  bound : v.empty = false → ∀ r ∈ v.used, r.seq ≤ max v.lastSeen (v.lastAck + 1)

namespace View.Covers

theorem keeps (h : v.Covers seen) (hk : v.Keeps seq v') : v'.Covers (seq :: seen) := by
  obtain ⟨hnum, hbelow, hcover, horder, hbound⟩ := h
  cases hk with
  | @first last ack f used free hack =>
    dsimp only at hnum hbelow
    refine ⟨fun r hr => ?_, fun h => (by cases h), fun _ x hx hlt => ?_, fun _ => ?_,
      fun _ r hr => ?_⟩
    · simp only [List.singleton_append, List.mem_cons, List.mem_append] at hr
      rcases hr with rfl | hr | hr
      · exact Int.one_nonneg
      · exact hnum r (by simp [hr])
      · exact hnum r (by simp [hr])
    · rcases List.mem_cons.mp hx with rfl | hx
      · exact ⟨_, List.mem_singleton_self _, Int.le_refl _, Int.lt_succ x⟩
      · exact absurd (hbelow rfl x hx) (not_le.mpr hlt)
    · exact List.pairwise_singleton _ _
    · rw [List.mem_singleton.mp hr]
      exact le_max_left _ _
  | @extend empty last ack r used free hfirst hseen hend =>
    dsimp only at hnum hbelow hcover horder hbound
    have hr0 : 0 ≤ r.num := hnum r (by simp)
    refine ⟨?_, fun he => ?_, fun he x hx hlt => ?_, fun he => ?_, fun he => ?_⟩
    · simp only [List.forall_mem_append, List.forall_mem_singleton] at hnum ⊢
      exact ⟨⟨hnum.1.1, by omega⟩, hnum.2⟩
    · exact List.forall_mem_cons.mpr ⟨(hfirst he).le, hbelow he⟩
    · rcases List.mem_cons.mp hx with rfl | hx
      · refine ⟨_, List.mem_concat_self, show r.seq ≤ x by omega, ?_⟩
        show x < r.seq + (r.num + 1)
        omega
      · obtain ⟨r', hr', h1, h2⟩ := hcover he x hx hlt
        rcases List.mem_append.mp hr' with hr' | hr'
        · exact ⟨r', List.mem_append_left _ hr', h1, h2⟩
        · obtain rfl := List.mem_singleton.mp hr'
          exact ⟨_, List.mem_concat_self, h1, show x < r'.seq + (r'.num + 1) by omega⟩
    · have ho := horder he
      rw [List.pairwise_append] at ho ⊢
      refine ⟨ho.1, List.pairwise_singleton _ _, fun a ha b hb => ?_⟩
      rw [List.mem_singleton.mp hb]
      exact ho.2.2 a ha r (List.mem_singleton_self r)
    · have hb := hbound he
      simp only [List.forall_mem_append, List.forall_mem_singleton] at hb ⊢
      exact ⟨fun a ha => by have := hb.1 a ha; omega, by have := hb.2; omega⟩
  | @extendFree last ack r free hack hseen hend =>
    dsimp only at hnum hbelow
    refine ⟨?_, fun he => ?_, fun he => (by cases he), fun he => (by cases he),
      fun he => (by cases he)⟩
    · simp only [List.nil_append, List.forall_mem_append, List.forall_mem_singleton] at hnum ⊢
      exact ⟨hnum.1, by omega⟩
    · exact List.forall_mem_cons.mpr ⟨hack.le, hbelow rfl⟩
  | @begin empty last ack f used free hfirst hseen hend =>
    dsimp only at hnum hbelow hcover horder hbound
    have hf0 : 0 ≤ f.num := hnum f (by simp)
    refine ⟨?_, fun he => ?_, fun he x hx hlt => ?_, fun he => ?_, fun he => ?_⟩
    · simp only [List.forall_mem_append, List.forall_mem_singleton, List.forall_mem_cons] at hnum ⊢
      exact ⟨⟨hnum.1, by omega⟩, hnum.2.2⟩
    · exact List.forall_mem_cons.mpr ⟨(hfirst he).le, hbelow he⟩
    · rcases List.mem_cons.mp hx with rfl | hx
      · exact ⟨_, List.mem_concat_self, Int.le_refl x, show x < x + (f.num + 1) by omega⟩
      · obtain ⟨r, hr, hx⟩ := hcover he x hx hlt
        exact ⟨r, List.mem_append_left _ hr, hx⟩
    · refine List.pairwise_append.mpr ⟨horder he, List.pairwise_singleton _ _, fun a ha b hb => ?_⟩
      rw [List.mem_singleton.mp hb]
      have := hbound he a ha
      dsimp only
      omega
    · have hb := hbound he
      simp only [List.forall_mem_append, List.forall_mem_singleton]
      exact ⟨fun a ha => by have := hb a ha; omega, by omega⟩
  | @front empty last ack r used free hfirst hseen hend =>
    dsimp only at hnum hbelow hcover horder hbound
    have hr0 : 0 ≤ r.num := hnum r (by simp)
    refine ⟨?_, fun he => ?_, fun he x hx hlt => ?_, fun he => ?_, fun he => ?_⟩
    · simp only [List.cons_append, List.forall_mem_cons] at hnum ⊢
      exact ⟨by omega, hnum.2⟩
    · exact List.forall_mem_cons.mpr ⟨(hfirst he).le, hbelow he⟩
    · rcases List.mem_cons.mp hx with rfl | hx
      · exact ⟨_, List.mem_cons_self, Int.le_refl x, show x < x + (r.num + 1) by omega⟩
      · obtain ⟨r', hr', h1, h2⟩ := hcover he x hx hlt
        rcases List.mem_cons.mp hr' with rfl | hr'
        · exact ⟨_, List.mem_cons_self, show seq ≤ x by omega, show x < seq + (r'.num + 1) by omega⟩
        · exact ⟨r', List.mem_cons_of_mem _ hr', h1, h2⟩
    · have ho := List.pairwise_cons.mp (horder he)
      refine List.pairwise_cons.mpr ⟨fun a ha => ?_, ho.2⟩
      have := ho.1 a ha
      dsimp only
      omega
    · have hb := List.forall_mem_cons.mp (hbound he)
      refine List.forall_mem_cons.mpr ⟨?_, hb.2⟩
      have := hb.1
      dsimp only
      omega
  | @frontFree last ack f free hack hseen hend =>
    dsimp only at hnum hbelow
    refine ⟨?_, fun he => ?_, fun he => (by cases he), fun he => (by cases he),
      fun he => (by cases he)⟩
    · simp only [List.nil_append, List.forall_mem_cons] at hnum ⊢
      exact ⟨by omega, hnum.2⟩
    · exact List.forall_mem_cons.mpr ⟨hack.le, hbelow rfl⟩

theorem acked (h : v.Covers seen) (hack : v.lastAck ≤ ack) (k : ℕ) :
    (v.acked ack k).Covers seen := by
  have hopen : (v.acked ack k).empty = false → v.empty = false := by
    simp +contextual [View.acked]
  refine ⟨fun r hr => ?_, fun he x hx => ?_, fun he x hx hlt => ?_, fun he => ?_, fun he r hr => ?_⟩
  · simp only [View.acked, List.mem_append, List.mem_replicate] at hr
    rcases hr with hr | hr | ⟨-, rfl⟩
    · rcases dropAcked_mem hr with hr | ⟨-, hpos⟩
      · exact h.num r (List.mem_append_left _ hr)
      · exact hpos.le
    · exact h.num r (List.mem_append_right _ hr)
    · exact Int.le_refl 0
  · by_contra hlt
    have hlt : ack < x := not_le.mp hlt
    cases hv : v.empty with
    | true => exact absurd (h.below hv x hx) (not_le.mpr (hack.trans_lt hlt))
    | false =>
      simp only [View.acked, hv, Bool.false_or, List.isEmpty_iff] at he
      obtain ⟨r, hr, -⟩ := (has_dropAcked hlt).mpr (h.cover hv x hx (hack.trans_lt hlt))
      rw [he] at hr
      exact absurd hr List.not_mem_nil
  · exact (has_dropAcked hlt).mpr (h.cover (hopen he) x hx (hack.trans_lt hlt))
  · exact dropAcked_order hack (h.order (hopen he))
  · simp only [View.acked] at hr ⊢
    rcases dropAcked_mem hr with hr | ⟨hseq, -⟩
    · have := h.bound (hopen he) r hr
      omega
    · omega

/-- The first range does not begin behind a packet that was seen. -/
theorem head_le (h : v.Covers seen) (hflag : v.used = [] → v.empty = true) {x : ℤ} (hx : x ∈ seen)
    (hlt : v.lastAck < x) : ∃ r ∈ v.used.head?, r.seq ≤ x := by
  have he : v.empty = false := by
    by_contra he
    rw [Bool.not_eq_false] at he
    exact absurd (h.below he x hx) (not_le.mpr hlt)
  obtain ⟨r', hr', hle, -⟩ := h.cover he x hx hlt
  cases hu : v.used with
  | nil => rw [hflag hu] at he; cases he
  | cons r l =>
    refine ⟨r, rfl, ?_⟩
    have horder := h.order he
    rw [hu] at hr' horder
    rcases List.mem_cons.mp hr' with rfl | hr'
    · exact hle
    · have := (List.pairwise_cons.mp horder).1 r' hr'
      omega

theorem reset (v : View) : v.reset.Covers [] where
  num := by simp [View.reset]
  below := fun _ _ hx => absurd hx List.not_mem_nil
  cover := fun he => by cases he
  order := fun he => by cases he
  bound := fun he => by cases he

end View.Covers

theorem dropAcked_sorted {l : List HdrSeq} (h : l.Pairwise fun r r' => r.seq + r.num < r'.seq) :
    (dropAcked ack l).Pairwise fun r r' => r.seq + r.num < r'.seq := by
  induction l with
  | nil => exact .nil
  | cons t l ih =>
    rw [dropAcked]
    split_ifs with hend hseq
    · exact ih h.of_cons
    · exact h
    · refine List.pairwise_cons.mpr ⟨fun r hr => ?_, h.of_cons⟩
      have := (List.pairwise_cons.mp h).1 r hr
      dsimp only
      omega

/-- The end of the last range stays. -/
theorem dropAcked_last {l : List HdrSeq} {m : ℤ} (h : ∀ r ∈ l.getLast?, r.seq + r.num = m) :
    ∀ r ∈ (dropAcked ack l).getLast?, r.seq + r.num = m := by
  induction l with
  | nil => exact fun r hr => by cases hr
  | cons t l ih =>
    have htail : ∀ r ∈ l.getLast?, r.seq + r.num = m := fun r hr => h r (by
      rw [List.getLast?_cons, Option.mem_def.mp hr]
      rfl)
    rw [dropAcked]
    split_ifs with hend hseq
    · exact ih htail
    · exact h
    · cases l with
      | nil =>
        intro r hr
        have ht := h t rfl
        obtain rfl := Option.some.inj hr
        show ack + 1 + (t.num - (ack - t.seq + 1)) = m
        omega
      | cons t' l =>
        rw [List.getLast?_cons_cons] at h ⊢
        exact h

/-- The ranges are sorted and disjoint, the others are clear, and above the last acknowledgement the
ranges hold what was seen. -/
structure View.Exact (v : View) (seen : List ℤ) : Prop where
  zero : ∀ r ∈ v.free, r = ⟨0, 0⟩
  unused : v.empty = true → v.used = []
  pos : ∀ r ∈ v.used, 0 < r.num
  sorted : v.used.Pairwise fun r r' => r.seq + r.num < r'.seq
  last : ∀ r ∈ v.used.getLast?, r.seq + r.num = v.lastSeen + 1
  seen_iff : ∀ x, v.lastAck < x → (x ∈ seen ↔ ∃ r ∈ v.used, Has r x)

namespace View.Exact

theorem keeps (h : v.Exact seen) (hflag : v.used = [] → v.empty = true) (hk : v.Keeps seq v')
    (hnew : v.empty = false → seq ≠ v.lastSeen)
    (hlate : v.empty = true → seq < v.lastAck → seq < v.lastSeen ∧ 0 ≤ seq) :
    v'.Exact (seq :: seen) := by
  obtain ⟨hzero, hunused, hpos, hsorted, hlast, hseen⟩ := h
  cases hk with
  | @first last ack f used free hack =>
    obtain rfl : used = [] := hunused rfl
    refine ⟨?_, fun he => (by cases he), ?_, List.pairwise_singleton _ _, ?_, fun x hx => ?_⟩
    · rw [List.append_nil]
      exact (List.forall_mem_cons.mp hzero).2
    · exact List.forall_mem_singleton.mpr Int.one_pos
    · rintro r hr
      obtain rfl := Option.some.inj hr
      rfl
    · have hx' := hseen x hx
      simp only [List.not_mem_nil, false_and, exists_false, iff_false] at hx'
      simp [Has, hx']
      omega
  | @extend empty last ack r used free hfirst hle hend =>
    refine ⟨hzero, fun he => absurd (hunused he) (by simp), ?_, ?_, ?_, fun x hx => ?_⟩
    · simp only [List.forall_mem_append, List.forall_mem_singleton] at hpos ⊢
      exact ⟨hpos.1, by omega⟩
    · rw [List.pairwise_append] at hsorted ⊢
      refine ⟨hsorted.1, List.pairwise_singleton _ _, fun a ha b hb => ?_⟩
      rw [List.mem_singleton.mp hb]
      exact hsorted.2.2 a ha r (List.mem_singleton_self r)
    · rw [List.getLast?_concat]
      intro r' hr'
      obtain rfl := Option.some.inj hr'
      show r.seq + (r.num + 1) = seq + 1
      omega
    · have hr := hpos r (by simp)
      have hx' := hseen x hx
      simp only [List.mem_append, List.mem_singleton, or_and_right, exists_or,
        exists_eq_left] at hx' ⊢
      rw [List.mem_cons, hx', or_left_comm]
      refine or_congr_right ?_
      simp only [Has]
      omega
  | @extendFree last ack r free hack hle hend => exact absurd (hlate rfl hack).1 (not_lt.mpr hle)
  | @begin empty last ack f used free hfirst hle hend =>
    obtain rfl : f = ⟨0, 0⟩ := hzero f (by simp)
    have he : empty = false := by
      by_contra he
      rw [Bool.not_eq_false] at he
      exact absurd (hlate he (hfirst he)).1 (not_lt.mpr hle)
    obtain ⟨used, r, rfl⟩ := (List.eq_nil_or_concat' used).resolve_left fun hu => by
      rw [he] at hflag
      cases hflag hu
    have hr := hpos r (by simp)
    have hgap : r.seq + r.num < seq := by
      have h1 := hlast r (by simp)
      have h2 := hend r (by simp)
      have h3 := hnew he
      dsimp only at h1 h3
      omega
    refine ⟨(List.forall_mem_cons.mp hzero).2, fun he => absurd (hunused he) (by simp), ?_, ?_, ?_,
      fun x hx => ?_⟩
    · exact List.forall_mem_append.mpr ⟨hpos, List.forall_mem_singleton.mpr Int.one_pos⟩
    · refine List.pairwise_append.mpr ⟨hsorted, List.pairwise_singleton _ _, fun a ha b hb => ?_⟩
      rw [List.mem_singleton.mp hb]
      rcases List.mem_append.mp ha with ha | ha
      · have := (List.pairwise_append.mp hsorted).2.2 a ha r (List.mem_singleton_self r)
        exact this.trans (by dsimp only; omega)
      · rw [List.mem_singleton.mp ha]
        exact hgap
    · rw [List.getLast?_concat]
      intro r' hr'
      obtain rfl := Option.some.inj hr'
      rfl
    · have hx' := hseen x hx
      simp only [List.mem_append (t := [_]), or_and_right, exists_or, List.mem_singleton,
        exists_eq_left] at hx' ⊢
      rw [List.mem_cons, hx', or_comm]
      refine or_congr_right ?_
      simp only [Has]
      omega
  | @front empty last ack r used free hfirst hlt hend =>
    have hr := hpos r List.mem_cons_self
    refine ⟨hzero, fun he => absurd (hunused he) (by simp), ?_, ?_, ?_, fun x hx => ?_⟩
    · refine List.forall_mem_cons.mpr ⟨?_, (List.forall_mem_cons.mp hpos).2⟩
      dsimp only
      omega
    · refine List.pairwise_cons.mpr ⟨fun a ha => ?_, hsorted.of_cons⟩
      have := (List.pairwise_cons.mp hsorted).1 a ha
      dsimp only
      omega
    · cases used with
      | nil =>
        have hlast := hlast r rfl
        intro r' hr'
        obtain rfl := Option.some.inj hr'
        show seq + (r.num + 1) = last + 1
        dsimp only at hlast
        omega
      | cons r' used =>
        rw [List.getLast?_cons_cons] at hlast ⊢
        exact hlast
    · have hx' := hseen x hx
      rw [exists_mem_cons] at hx' ⊢
      rw [List.mem_cons, hx', ← or_assoc]
      refine or_congr_left ?_
      simp only [Has]
      omega
  | @frontFree last ack f free hack hlt hend =>
    have hf : f = ⟨0, 0⟩ := hzero f (by simp)
    have h0 := (hlate rfl hack).2
    rw [hf] at hend
    dsimp only at hend
    omega

theorem acked (h : v.Exact seen) (hack : v.lastAck ≤ ack) (k : ℕ) : (v.acked ack k).Exact seen where
  zero := by
    intro r hr
    simp only [View.acked, List.mem_append, List.mem_replicate] at hr
    exact hr.elim (h.zero r) And.right
  unused := by
    intro he
    simp only [View.acked, Bool.or_eq_true, List.isEmpty_iff] at he ⊢
    rcases he with he | he
    · rw [h.unused he]
      rfl
    · exact he
  pos := fun r hr => (dropAcked_mem hr).elim (h.pos r) And.right
  sorted := dropAcked_sorted h.sorted
  last := dropAcked_last h.last
  seen_iff := fun x hx => (h.seen_iff x (hack.trans_lt hx)).trans (has_dropAcked hx).symm

theorem reset (v : View) : v.reset.Exact [] where
  zero := fun r hr => (List.mem_replicate.mp hr).2
  unused := fun _ => rfl
  pos := fun _ hr => absurd hr List.not_mem_nil
  sorted := .nil
  last := fun r hr => by cases hr
  seen_iff := fun x _ => by simp [View.reset]

end View.Exact

theorem Views.ranges {s : SnoopWl} (h : s.Views v) : s.ranges = v.used := by
  have hlt := h.parts.length_lt
  have hhead := h.parts.head
  have hdist := slot_dist h.parts.tail_lt.le hlt
  rw [← hhead] at hdist
  refine List.ext_getElem? fun i => ?_
  rw [SnoopWl.ranges, hdist, List.getElem?_map]
  by_cases hi : i < v.used.length
  · rw [List.getElem?_range hi, h.parts.holds.left i hi]
    rfl
  · rw [List.getElem?_eq_none (by simpa using hi), List.getElem?_eq_none (by omega)]
    rfl

/-- A step that leaves an entry free, and what it does to the view. -/
theorem Views.data {s : SnoopWl} (h : s.Views v) (l : List ℤ) (hfills : ¬ s.Fills (.data seq)) :
    ∃ v', (s.snoop_wless_data seq).Views v' ∧
      (v' = v.start (s.restarts seq) ∧ s.seen l (.data seq) = s.forget seq l ∨
        (v.start (s.restarts seq)).Keeps seq v' ∧
          s.seen l (.data seq) = seq :: s.forget seq l) := by
  have hstart := h.start seq
  by_cases hi : (s.start seq).Ignored seq
  · refine ⟨_, ?_, .inl ⟨rfl, if_pos hi⟩⟩
    rw [snoop_wless_data, Views.keep_of_ignored hi]
    exact hstart
  · obtain ⟨v', hv', hk⟩ := hstart.keep hfills hi
    exact ⟨v', hv', .inr ⟨hk, if_neg hi⟩⟩

/-- A mark tells of the ring that the next packet is not in the first range. -/
theorem Views.wired_ack {s : SnoopWl} (h : s.Views v) (ack : ℤ) :
    ∃ s' v' eln, s.snoop_wired_ack ack = some (s', eln) ∧ s'.Views v' ∧
      (v' = v ∨ ∃ k, v.lastAck ≤ ack ∧ v' = v.acked ack k) ∧
      (eln = true → v'.lastAck = ack ∧ ∀ r ∈ v'.used.head?, ack + 1 < r.seq) := by
  by_cases hdup : ack = s.wl_lastAck_ ∧ s.snoop_wlessloss ack = true
  · refine ⟨s, v, true, if_pos hdup, h, .inl rfl, fun _ => ⟨?_, h.wlessloss_iff.mp hdup.2⟩⟩
    rw [← h.lastAck, hdup.1]
  · by_cases hnew : ack > s.wl_lastAck_
    · obtain ⟨s', k, hadvance, hv'⟩ := h.advance ack
      refine ⟨s', v.acked ack k, s'.wl_bufhead_ != s'.wl_buftail_ && s'.snoop_wlessloss ack, ?_,
        hv', .inr ⟨k, h.lastAck ▸ hnew.le, rfl⟩, fun heln => ⟨rfl, ?_⟩⟩
      · rw [snoop_wired_ack, if_neg hdup, if_pos hnew, hadvance]
        rfl
      · exact hv'.wlessloss_iff.mp (Bool.and_eq_true_iff.mp heln).2
    · refine ⟨s, v, false, ?_, h, .inl rfl, fun heln => (by cases heln)⟩
      rw [snoop_wired_ack, if_neg hdup, if_neg hnew]

/-- A mark means that the next packet was not seen, and the ring is not taken for empty as long as a
packet above the last acknowledgement was. -/
def Marks (p : SnoopWl × List ℤ) (e : Event) (eln : Bool) (p' : SnoopWl × List ℤ) : Prop :=
  (∀ ack, e = .ack ack → eln = true → ack + 1 ∉ p.2) ∧
    ∀ x ∈ p'.2, p'.1.wl_lastAck_ < x → p'.1.wl_bufhead_ ≠ p'.1.wl_buftail_

/-- The ranges are sorted and disjoint, and hold what was seen above the last acknowledgement. -/
def Sorted (s : SnoopWl) (l : List ℤ) : Prop :=
  (s.ranges.Pairwise fun r r' => r.seq + r.num < r'.seq) ∧ (∀ r ∈ s.ranges, 0 < r.num) ∧
    ∀ x, s.wl_lastAck_ < x → (x ∈ l ↔ ∃ r ∈ s.ranges, Has r x)

theorem Views.not_empty {s : SnoopWl} {l : List ℤ} (h : s.Views v) (hc : v.Covers l) {x : ℤ}
    (hx : x ∈ l) (hlt : s.wl_lastAck_ < x) : s.wl_bufhead_ ≠ s.wl_buftail_ := by
  intro he
  rw [h.lastAck] at hlt
  obtain ⟨r, hr, -⟩ := hc.head_le h.flag hx hlt
  rw [h.parts.empty_iff.mp he] at hr
  cases hr

theorem Views.sorted {s : SnoopWl} {l : List ℤ} (h : s.Views v) (he : v.Exact l) : s.Sorted l := by
  rw [Sorted, h.ranges, h.lastAck]
  exact ⟨he.sorted, he.pos, he.seen_iff⟩

def Covered (p : SnoopWl × List ℤ) : Prop := ∃ v, p.1.Views v ∧ v.Covers p.2

def Exact (p : SnoopWl × List ℤ) : Prop := ∃ v, p.1.Views v ∧ v.Exact p.2

theorem Covered.step {p : SnoopWl × List ℤ} (h : Covered p) {e : Event} (he : ¬ p.1.Fills e) :
    ∃ p' eln, Machine.ghost step SnoopWl.seen p e = some (p', eln) ∧ Marks p e eln p' ∧
      Covered p' := by
  obtain ⟨s, l⟩ := p
  obtain ⟨v, hv, hc⟩ : ∃ v, s.Views v ∧ v.Covers l := h
  cases e with
  | data seq =>
    obtain ⟨v', hv', hk⟩ := hv.data l he
    have hstart : (v.start (s.restarts seq)).Covers (s.forget seq l) := by
      rw [View.start, forget]
      split_ifs
      · exact .reset v
      · exact hc
    have hc' : v'.Covers (s.seen l (.data seq)) := by
      rcases hk with ⟨rfl, hseen⟩ | ⟨hk, hseen⟩
      · rw [hseen]
        exact hstart
      · rw [hseen]
        exact hstart.keeps hk
    exact ⟨_, _, rfl, ⟨fun _ h => (by cases h), fun _ => hv'.not_empty hc'⟩, v', hv', hc'⟩
  | ack ack =>
    obtain ⟨s', v', eln, hack, hv', hk, heln⟩ := hv.wired_ack ack
    have hc' : v'.Covers l := by
      rcases hk with rfl | ⟨k, hle, rfl⟩
      · exact hc
      · exact hc.acked hle k
    have hstep : SnoopWl.step s (.ack ack) = some (s', eln) := hack
    refine ⟨_, eln, Machine.ghost_eq_some hstep _ _, ⟨?_, fun _ => hv'.not_empty hc'⟩, v', hv', hc'⟩
    intro ack' he' hmark hmem
    obtain rfl := Event.ack.inj he'
    obtain ⟨hlast, hfirst⟩ := heln hmark
    obtain ⟨r, hr, hle⟩ := hc'.head_le hv'.flag hmem (by omega)
    have := hfirst r hr
    omega

theorem Exact.step {p : SnoopWl × List ℤ} (h : Exact p) {e : Event}
    (he : ¬ p.1.Fills e ∧ ¬ p.1.Repeats e ∧ ¬ p.1.Late e) :
    ∃ p' eln, Machine.ghost step SnoopWl.seen p e = some (p', eln) ∧ p'.1.Sorted p'.2 ∧
      Exact p' := by
  obtain ⟨s, l⟩ := p
  obtain ⟨v, hv, hx⟩ : ∃ v, s.Views v ∧ v.Exact l := h
  obtain ⟨hfills, hrepeats, hlate⟩ := he
  cases e with
  | data seq =>
    obtain ⟨v', hv', hk⟩ := hv.data l hfills
    have hview := hv.start seq
    have hstart : (v.start (s.restarts seq)).Exact (s.forget seq l) := by
      rw [View.start, forget]
      split_ifs
      · exact .reset v
      · exact hx
    have hx' : v'.Exact (s.seen l (.data seq)) := by
      rcases hk with ⟨rfl, hseen⟩ | ⟨hk, hseen⟩
      · rw [hseen]
        exact hstart
      · rw [hseen]
        refine hstart.keeps hview.flag hk (fun he hlast => hrepeats ⟨?_, ?_⟩) fun he hlt => ?_
        · rw [hview.empty, he]
        · exact hlast.trans hview.lastSeen.symm
        · by_contra hno
          refine hlate ⟨hview.empty.trans he, hview.lastAck ▸ hlt, ?_⟩
          rw [hview.lastSeen]
          omega
    exact ⟨_, _, rfl, hv'.sorted hx', v', hv', hx'⟩
  | ack ack =>
    obtain ⟨s', v', eln, hack, hv', hk, -⟩ := hv.wired_ack ack
    have hx' : v'.Exact l := by
      rcases hk with rfl | ⟨k, hle, rfl⟩
      · exact hx
      · exact hx.acked hle k
    have hstep : SnoopWl.step s (.ack ack) = some (s', eln) := hack
    exact ⟨_, eln, Machine.ghost_eq_some hstep _ _, hv'.sorted hx', v', hv', hx'⟩

end SnoopWl

end Ns2
