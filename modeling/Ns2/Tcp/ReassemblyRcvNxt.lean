import Ns2.Tcp.ReassemblyRuns

/-! The received number of a reassembly queue: `rcv_nxt_` goes to the end of what is there without
a hole, unless an old segment is added before all that is queued. -/

namespace Ns2.ReassemblyQueue

open Intervals

variable {s t : ReassemblyQueue} {fs ls ls' L T R : List ℕ} {m : ℕ} {start end_ : ℤ} {f : ℕ}

/-- The operations that share `rcv_nxt_`; `add` aborts if the segment ends before its start. -/
def Op.Shared : Op → Prop
  | .add start end_ _ _ => start ≤ end_
  | .rcvnxt _ => False
  | _ => True

/-- The segment that is added does not lie below `rcv_nxt_` and before all blocks, and `add`
returns. -/
def Reaches (s : ReassemblyQueue) : Op → Prop
  | .add start end_ _ _ => ¬ s.Crashes s.queued start end_ ∧
      ¬ (end_ < s.rcv_nxt_ ∧ ∀ x ∈ s.queued, end_ < s.startseq_ x)
  | _ => True

/-- A block that starts at `rcv_nxt_` or below ends there. -/
structure Prefixed (s : ReassemblyQueue) (fs ls : List ℕ) (S : Set ℤ) : Prop where
  view : View s fs ls
  cover : cover s.startseq_ s.endseq_ fs = S
  ends : ∀ a ∈ fs, s.startseq_ a ≤ s.rcv_nxt_ → s.endseq_ a = s.rcv_nxt_

/-- `rcv_nxt_` has moved to the first number that is not there. -/
def Advanced (rcvnxt : ℤ) (S : Set ℤ) (rcvnxt' : ℤ) : Prop :=
  IsLeast {i | rcvnxt ≤ i ∧ i ∉ S} rcvnxt'

theorem Prefixed.not_mem {S : Set ℤ} (h : Prefixed s fs ls S) : s.rcv_nxt_ ∉ S := by
  rw [← h.cover]
  rintro ⟨a, ha, h1, h2⟩
  exact h2.ne (h.ends a ha h1).symm

/-- Below the end of a block that `rcv_nxt_` reached, nothing is missing. -/
theorem Prefixed.advanced {S : Set ℤ} {r : ℤ} (h : Prefixed s fs ls S)
    (hr : s.rcv_nxt_ = r ∨ ∃ a ∈ fs, s.startseq_ a ≤ r ∧ r ≤ s.endseq_ a ∧
      s.rcv_nxt_ = s.endseq_ a) : Advanced r S s.rcv_nxt_ := by
  rcases hr with hr | ⟨a, ha, h1, h2, h3⟩
  · refine ⟨⟨hr.ge, h.not_mem⟩, fun i hi => ?_⟩
    exact hr.trans_le hi.1
  · refine ⟨⟨h3 ▸ h2, h.not_mem⟩, fun i hi => ?_⟩
    by_contra hlt
    apply hi.2
    rw [← h.cover]
    exact ⟨a, ha, h1.trans hi.1, by omega⟩

/-! ### Adding a segment -/

/-- The block that takes in the segment ends at `rcv_nxt_` or behind it, if it starts there. -/
theorem Gathers.reaches {fresh : Bool} {lost : Option ℕ} {S : Set ℤ}
    (h : Prefixed s (L ++ T ++ R) ls S) (hg : Gathers s t L T R ls ls' m fresh lost start end_ f)
    (hle : start ≤ end_) (hL : ∀ a ∈ L, s.endseq_ a < start) (hT : ∀ x ∈ T, s.Meets start end_ x)
    (hold : ¬ (end_ < s.rcv_nxt_ ∧ ∀ x ∈ L ++ T ++ R, end_ < s.startseq_ x))
    (hR : ∀ b ∈ R, end_ < s.startseq_ b) (hm : t.startseq_ m ≤ s.rcv_nxt_) :
    s.rcv_nxt_ ≤ t.endseq_ m := by
  rw [hg.hi]
  rcases (hg.lo _).mp hm with hs | ⟨a, ha, hs⟩
  · by_contra hc
    rw [not_or, not_le] at hc
    refine hold ⟨hc.1, fun x hx => ?_⟩
    rcases List.mem_append.mp hx with hx' | hx'
    · rcases List.mem_append.mp hx' with hxL | hxT
      · have h1 := h.view.proper x hx
        have h2 := hL x hxL
        have h3 := h.ends x hx (by omega)
        omega
      · have h1 := hT x hxT
        have h2 := h.ends x hx (h1.1.trans hc.1.le)
        exact absurd ⟨x, hxT, h2.ge⟩ hc.2
    · exact hR x hx'
  · exact .inr ⟨a, ha, (h.ends a (by simp [ha]) hs).ge⟩

/-- If the block that takes in the segment starts at `rcv_nxt_` or below, no other one does. -/
theorem Gathers.alone {fresh : Bool} {lost : Option ℕ} {S : Set ℤ}
    (h : Prefixed s (L ++ T ++ R) ls S) (hg : Gathers s t L T R ls ls' m fresh lost start end_ f)
    (hm : t.startseq_ m ≤ s.rcv_nxt_) {x : ℕ} (hx : x ∈ L ++ R) : t.endseq_ m < t.startseq_ x := by
  rcases List.mem_append.mp hx with hxL | hxR
  · have h1 : t.endseq_ x < t.startseq_ m := hg.view.lt hxL (by simp)
    have h2 := hg.view.proper x (by simp [hxL])
    have h3 := h.ends x (by simp [hxL]) (by rw [← hg.startseq x hx]; omega)
    rw [hg.endseq x hx] at h1 h2
    omega
  · exact View.lt (L := L ++ [m]) (by simpa using hg.view) (by simp) hxR

theorem Prefixed.gathers {fresh : Bool} {lost : Option ℕ} {S : Set ℤ}
    (h : Prefixed s (L ++ T ++ R) ls S) (hg : Gathers s t L T R ls ls' m fresh lost start end_ f)
    (hle : start ≤ end_) (hL : ∀ a ∈ L, s.endseq_ a < start) (hT : ∀ x ∈ T, s.Meets start end_ x)
    (hold : ¬ (end_ < s.rcv_nxt_ ∧ ∀ x ∈ L ++ T ++ R, end_ < s.startseq_ x))
    (hR : ∀ b ∈ R, end_ < s.startseq_ b) :
    Prefixed t (L ++ m :: R) ls' (S ∪ Set.Ico start end_) ∧
      Advanced s.rcv_nxt_ (S ∪ Set.Ico start end_) t.rcv_nxt_ := by
  have hreach := hg.reaches h hle hL hT hold hR
  have hothers : ∀ x ∈ L ++ R, t.startseq_ x ≤ s.rcv_nxt_ → t.endseq_ x = s.rcv_nxt_ := by
    intro x hx hxs
    rw [hg.endseq x hx]
    rw [hg.startseq x hx] at hxs
    refine h.ends x ?_ hxs
    simp only [List.mem_append] at hx ⊢
    tauto
  have hrcv : (t.rcv_nxt_ = s.rcv_nxt_ ∧ (t.startseq_ m ≤ s.rcv_nxt_ → t.endseq_ m = s.rcv_nxt_)) ∨
      (t.startseq_ m ≤ s.rcv_nxt_ ∧ t.rcv_nxt_ = t.endseq_ m) := by
    rcases hg.rcv_nxt with ⟨hf, hst, hen, hr⟩ | ⟨k, rfl | hk, hr⟩
    · rw [hst, hen]
      exact .inl ⟨hr, h.ends m (by simp [(hg.first hf).1])⟩
    · by_cases hks : t.startseq_ k ≤ s.rcv_nxt_
      · exact .inr ⟨hks, hr.trans (if_pos hks)⟩
      · exact .inl ⟨hr.trans (if_neg hks), fun hc => absurd hc hks⟩
    · cases L with
      | nil =>
        obtain rfl : m = k := Option.some.inj hk
        by_cases hks : t.startseq_ m ≤ s.rcv_nxt_
        · exact .inr ⟨hks, hr.trans (if_pos hks)⟩
        · exact .inl ⟨hr.trans (if_neg hks), fun hc => absurd hc hks⟩
      | cons a L =>
        obtain rfl : a = k := Option.some.inj hk
        have h1 : t.endseq_ a < t.startseq_ m := hg.view.lt (by simp) (by simp)
        have h2 := hg.view.proper a (by simp)
        have h3 := hothers a (by simp)
        refine .inl ⟨?_, fun hc => absurd (h3 (by omega)) (by omega)⟩
        rw [hr, adv]
        split_ifs with hks
        · exact h3 hks
        · rfl
  have hpre : Prefixed t (L ++ m :: R) ls' (S ∪ Set.Ico start end_) := by
    refine ⟨hg.view, by rw [hg.cover hT, h.cover], fun a ha has => ?_⟩
    rcases List.mem_cons.mp (List.perm_middle.mem_iff.mp ha) with rfl | hx
    · rcases hrcv with ⟨hr, hma⟩ | ⟨-, hr⟩
      · rw [hr] at has ⊢
        exact hma has
      · exact hr.symm
    · rcases hrcv with ⟨hr, -⟩ | ⟨hms, hr⟩
      · rw [hr] at has ⊢
        exact hothers a hx has
      · have h1 := hg.alone h hms hx
        omega
  refine ⟨hpre, hpre.advanced ?_⟩
  rcases hrcv with ⟨hr, -⟩ | ⟨hms, hr⟩
  · exact .inl hr
  · exact .inr ⟨m, by simp, hms, hreach hms, hr⟩

/-! ### Steps and runs -/

theorem Prefixed.rcv_nxt_of_head {S : Set ℤ} (h : Prefixed s fs ls S) {a : ℕ}
    (ha : fs.head? = some a) : (s.advance (s.startseq_ a) (s.endseq_ a)).rcv_nxt_ = s.rcv_nxt_ := by
  change adv s.rcv_nxt_ (s.startseq_ a) (s.endseq_ a) = s.rcv_nxt_
  rw [adv]
  split_ifs with hle
  · exact h.ends a (List.mem_of_mem_head? ha) hle
  · rfl

theorem Prefixed.add {S : Set ℤ} (h : Prefixed s fs ls S) (hle : start ≤ end_)
    (hc : ¬ s.Crashes fs start end_) (hold : ¬ (end_ < s.rcv_nxt_ ∧ ∀ x ∈ fs, end_ < s.startseq_ x))
    (tiflags rqflags : ℕ) : ∃ t flags fs' ls', s.add start end_ tiflags rqflags = some (t, flags) ∧
      Prefixed t fs' ls' (S ∪ Set.Ico start end_) ∧
      Advanced s.rcv_nxt_ (S ∪ Set.Ico start end_) t.rcv_nxt_ := by
  obtain ⟨t, flags, h1, ⟨h2, a, ha, rfl⟩ | ⟨L, T, R, ls', m, fresh, lost, rfl, hL, hT, hR, hg⟩⟩ :=
    h.view.add hle hc tiflags rqflags
  · have hr := h.rcv_nxt_of_head ha
    have hS : S ∪ Set.Ico start end_ = S := by simp [h2.1]
    have hpre : Prefixed (s.advance (s.startseq_ a) (s.endseq_ a)) fs ls S :=
      ⟨h.view.rcvnxt _, h.cover, fun x hx hxs => by
        rw [hr] at hxs ⊢
        exact h.ends x hx hxs⟩
    rw [hS]
    exact ⟨_, flags, fs, ls, h1, hpre, hpre.advanced (.inl hr)⟩
  · obtain ⟨h2, h3⟩ := h.gathers hg hle hL hT hold hR
    exact ⟨t, flags, _, ls', h1, h2, h3⟩

theorem Prefixed.clearto {S : Set ℤ} (h : Prefixed s fs ls S) (seq : ℤ) : ∃ t flags fs' ls',
    s.clearto seq = some (t, flags) ∧ Prefixed t fs' ls' (S ∩ Set.Ici seq) ∧
      t.rcv_nxt_ = s.rcv_nxt_ := by
  obtain ⟨t, flag, D, fs', rfl, h1, h2, h3, h4, h5, h6, -, h7, -⟩ := h.view.clearto seq
  refine ⟨t, flag, fs', _, h1, ⟨h2, ?_, fun a ha has => ?_⟩, h7⟩
  · rw [← h.cover]
    exact cover_clearto h3 h5 h6
  · rw [h7, h5 a ha] at has
    rw [h6, h7]
    exact h.ends a (by simp [ha]) ((le_max_right _ _).trans has)

/-- What a step owes to `rcv_nxt_`: it does not go back, and an `add` takes it to the first number
that is not there. -/
def Owes (rcvnxt : ℤ) (S : Set ℤ) (rcvnxt' : ℤ) : Op → Prop
  | .add _ _ _ _ => rcvnxt ≤ rcvnxt' ∧ Advanced rcvnxt S rcvnxt'
  | _ => rcvnxt ≤ rcvnxt'

theorem Prefixed.step {S : Set ℤ} (h : Prefixed s fs ls S) {op : Op} (hop : op.Shared)
    (hreach : s.Reaches op) : ∃ t flags fs' ls', s.step op = some (t, flags) ∧
      Prefixed t fs' ls' (covered s S op) ∧ Owes s.rcv_nxt_ (covered s S op) t.rcv_nxt_ op := by
  cases op with
  | add start end_ tiflags rqflags =>
    rw [Reaches, h.view.queued_eq] at hreach
    obtain ⟨t, flags, fs', ls', h1, h2, h3⟩ := h.add hop hreach.1 hreach.2 tiflags rqflags
    exact ⟨t, flags, fs', ls', h1, h2, h3.1.1, h3⟩
  | clear =>
    obtain ⟨t, h1, h2, h3⟩ := h.view.clear
    exact ⟨t, 0, [], [], by rw [ReassemblyQueue.step, h1]; rfl, ⟨h2, cover_nil, by simp⟩, h3.ge⟩
  | clearto seq =>
    obtain ⟨t, flags, fs', ls', h1, h2, h3⟩ := h.clearto seq
    exact ⟨t, flags, fs', ls', h1, h2, h3.ge⟩
  | cleartonxt =>
    obtain ⟨t, flags, fs', ls', h1, h2, h3⟩ := h.clearto s.rcv_nxt_
    exact ⟨t, flags, fs', ls', h1, h2, h3.ge⟩
  | rcvnxt seq => exact absurd hop id

/-- In every run from an empty queue in which no old segment is added before all blocks, and the
next step neither, the steps return and the next one owes nothing to `rcv_nxt_`. -/
theorem rcv_nxt_reaches (rcvnxt : ℤ) {ops : List Op} {op : Op}
    (hops : Machine.Admits (Machine.ghost ReassemblyQueue.step covered)
      (fun p op => op.Shared ∧ p.1.Reaches op) (new rcvnxt, ∅) (ops ++ [op])) :
    ∃ s S os t S' flags, Machine.run (Machine.ghost ReassemblyQueue.step covered) (new rcvnxt, ∅)
        ops = some ((s, S), os) ∧
      Machine.ghost ReassemblyQueue.step covered (s, S) op = some ((t, S'), flags) ∧
      Owes s.rcv_nxt_ S' t.rcv_nxt_ op := by
  obtain ⟨⟨s, S⟩, os, h1, ⟨fs, ls, h2⟩, h3, h4⟩ := Machine.run_concat
    (I := fun p : ReassemblyQueue × Set ℤ => ∃ fs ls, Prefixed p.1 fs ls p.2)
    (fun p op ⟨fs, ls, h⟩ hop => by
      obtain ⟨t, flags, fs', ls', h5, h6, -⟩ := h.step hop.1 hop.2
      exact ⟨_, flags, Machine.ghost_eq_some h5 covered p.2, fs', ls', h6⟩)
    ⟨[], [], new_view rcvnxt, cover_nil, by simp⟩ hops
  obtain ⟨t, flags, fs', ls', h5, -, h7⟩ := h2.step h3 h4
  exact ⟨s, S, os, t, _, flags, h1, Machine.ghost_eq_some h5 covered S, h7⟩

instance : DecidablePred Op.Shared
  | .add start end_ _ _ => inferInstanceAs (Decidable (start ≤ end_))
  | .rcvnxt _ => instDecidableFalse
  | .clear => instDecidableTrue
  | .clearto _ => instDecidableTrue
  | .cleartonxt => instDecidableTrue

instance (s : ReassemblyQueue) : DecidablePred s.Reaches
  | .add start end_ _ _ => inferInstanceAs (Decidable (¬ s.Crashes s.queued start end_ ∧
      ¬ (end_ < s.rcv_nxt_ ∧ ∀ x ∈ s.queued, end_ < s.startseq_ x)))
  | .rcvnxt _ => instDecidableTrue
  | .clear => instDecidableTrue
  | .clearto _ => instDecidableTrue
  | .cleartonxt => instDecidableTrue

theorem rcv_nxt_reaches_hole : ∃ s S os t S' flags,
    Machine.run (Machine.ghost ReassemblyQueue.step covered) (new 0, ∅)
      [.add 20 30 0 0, .add 0 10 0 0, .cleartonxt] = some ((s, S), os) ∧
    Machine.ghost ReassemblyQueue.step covered (s, S) (.add 10 20 0 0) = some ((t, S'), flags) ∧
    Owes s.rcv_nxt_ S' t.rcv_nxt_ (.add 10 20 0 0) :=
  rcv_nxt_reaches 0 (by decide)

/-- An old segment takes `rcv_nxt_` back when the queue was cleared. -/
theorem rcv_nxt_falls : ¬ ∀ (rcvnxt : ℤ) (ops : List Op) (op : Op),
    (∀ o ∈ ops ++ [op], o.Shared) → ∃ s S os t S' flags,
      Machine.run (Machine.ghost ReassemblyQueue.step covered) (new rcvnxt, ∅) ops =
        some ((s, S), os) ∧
      Machine.ghost ReassemblyQueue.step covered (s, S) op = some ((t, S'), flags) ∧
      Owes s.rcv_nxt_ S' t.rcv_nxt_ op := by
  intro hall
  obtain ⟨s, S, os, t, S', flags, h1, h2, h3, -⟩ :=
    hall 0 [.add 0 50 0 0, .cleartonxt] (.add 0 10 0 0) (by decide)
  have hfalls : ((Machine.run (Machine.ghost ReassemblyQueue.step covered) (new 0, ∅)
      [.add 0 50 0 0, .cleartonxt]).bind fun r =>
        (Machine.ghost ReassemblyQueue.step covered r.1 (.add 0 10 0 0)).map fun q =>
          decide (r.1.1.rcv_nxt_ ≤ q.1.1.rcv_nxt_)) = some false := by decide
  rw [h1, Option.bind_some, h2, Option.map_some, Option.some_inj, decide_eq_false_iff_not] at hfalls
  exact hfalls h3

end Ns2.ReassemblyQueue
