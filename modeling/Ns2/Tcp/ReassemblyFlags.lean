import Ns2.Tcp.ReassemblyRuns

/-! The flags of a reassembly queue: each block has the flags of the segments in it, unless it
joins two blocks of which the second one has flags of its own. -/

namespace Ns2.ReassemblyQueue

open Intervals

/-- A segment that was added, without the numbers that were cleared. -/
structure Segment where
  start : ℤ
  end_ : ℤ
  tiflags : ℕ

/-- The segment lies in the block. -/
def LiesIn (s : ReassemblyQueue) (x : ℕ) (g : Segment) : Prop :=
  s.startseq_ x ≤ g.start ∧ g.end_ ≤ s.endseq_ x

instance (s : ReassemblyQueue) (x : ℕ) : DecidablePred (s.LiesIn x) := fun _ =>
  inferInstanceAs (Decidable (_ ∧ _))

/-- The segments that have numbers from `seq` on, without those below. -/
def trim (seq : ℤ) (segs : List Segment) : List Segment :=
  (segs.filter (seq < ·.end_)).map fun g => { g with start := max seq g.start }

/-- The segments that lose numbers when everything below `seq` is cleared. -/
def cleared (seq : ℤ) (segs : List Segment) : List Segment :=
  segs.filter fun g => g.start < seq ∨ g.end_ ≤ seq

/-- The segments after the operation, the most recent one first. -/
def segments (s : ReassemblyQueue) (segs : List Segment) : Op → List Segment
  | .add start end_ tiflags _ => ⟨start, end_, tiflags⟩ :: segs
  | .clear => []
  | .clearto seq => trim seq segs
  | .cleartonxt => trim s.rcv_nxt_ segs
  | .rcvnxt _ => segs

/-- The bitwise or of flags. -/
def orFlags (flags : List ℕ) : ℕ := flags.foldr (· ||| ·) 0

theorem testBit_orFlags (l : List ℕ) (i : ℕ) :
    (orFlags l).testBit i = true ↔ ∃ a ∈ l, a.testBit i = true := by
  induction l with
  | nil => simp [orFlags]
  | cons a l ih =>
    have hcons : orFlags (a :: l) = a ||| orFlags l := rfl
    rw [hcons, Nat.testBit_or, Bool.or_eq_true, ih, List.exists_mem_cons_iff]

/-- Flags that others contain add nothing to them. -/
theorem or_eq_right_iff {a b : ℕ} :
    a ||| b = b ↔ ∀ i, a.testBit i = true → b.testBit i = true := by
  constructor
  · intro h i hi
    rw [← h, Nat.testBit_or, hi, Bool.true_or]
  · intro h
    apply Nat.eq_of_testBit_eq
    intro i
    rw [Nat.testBit_or]
    cases ha : a.testBit i with
    | false => rw [Bool.false_or]
    | true => rw [Bool.true_or, h i ha]

variable {s t : ReassemblyQueue} {fs ls ls' L T R : List ℕ} {m : ℕ} {start end_ : ℤ} {f : ℕ}
  {segs : List Segment}

/-- Each segment lies in a block, and each block has the flags of the segments that lie in it. -/
structure Flagged (s : ReassemblyQueue) (fs ls : List ℕ) (segs : List Segment) : Prop where
  view : View s fs ls
  proper : ∀ g ∈ segs, g.start ≤ g.end_
  placed : ∀ g ∈ segs, ∃ x ∈ fs, s.LiesIn x g
  flags : ∀ x ∈ fs, ∀ i, (s.pflags_ x).testBit i = true ↔
    ∃ g ∈ segs, s.LiesIn x g ∧ g.tiflags.testBit i = true

/-! ### Adding a segment -/

/-- A block that the segment meets, and that `add` does not kill. -/
def Survives (s : ReassemblyQueue) (start end_ : ℤ) (x : ℕ) : Prop :=
  s.Meets start end_ x ∧ ¬ s.Overlapped start end_ x

/-- Of two blocks that are joined, the second one has only flags that the segment or another block
brings. -/
def Joins (s : ReassemblyQueue) (fs : List ℕ) (start end_ : ℤ) (f : ℕ) : Prop :=
  ∀ a ∈ fs, ∀ b ∈ fs, s.Survives start end_ a → s.Survives start end_ b →
    s.endseq_ a < s.startseq_ b →
      let flags := f ||| orFlags ((fs.filter fun c => c ≠ b ∧ s.Meets start end_ c).map s.pflags_)
      s.pflags_ b ||| flags = flags

theorem Flagged.gathers {fresh : Bool} {lost : Option ℕ} (h : Flagged s (L ++ T ++ R) ls segs)
    (hg : Gathers s t L T R ls ls' m fresh lost start end_ f) (hle : start ≤ end_)
    (hL : ∀ a ∈ L, s.endseq_ a < start) (hT : ∀ x ∈ T, s.Meets start end_ x)
    (hR : ∀ b ∈ R, end_ < s.startseq_ b) (hj : s.Joins (L ++ T ++ R) start end_ f) :
    Flagged t (L ++ m :: R) ls' (⟨start, end_, f⟩ :: segs) := by
  have hmem : ∀ x, x ∈ L ++ T ++ R ↔ x ∈ T ∨ x ∈ L ++ R := fun x => by
    simp only [List.mem_append]
    tauto
  have hmem' : ∀ x, x ∈ L ++ m :: R ↔ x = m ∨ x ∈ L ++ R := fun x =>
    List.perm_middle.mem_iff.trans List.mem_cons
  have hnew : t.LiesIn m ⟨start, end_, f⟩ :=
    ⟨(hg.lo _).mpr (.inl le_rfl), (hg.hi _).mpr (.inl le_rfl)⟩
  have hin : ∀ x ∈ T, ∀ g, s.LiesIn x g → t.LiesIn m g := fun x hx g hxg =>
    ⟨(hg.lo _).mpr (.inr ⟨x, hx, hxg.1⟩), (hg.hi _).mpr (.inr ⟨x, hx, hxg.2⟩)⟩
  have hout : ∀ x ∈ L ++ R, ∀ g, t.LiesIn x g ↔ s.LiesIn x g := fun x hx g => by
    unfold LiesIn
    rw [hg.startseq x hx, hg.endseq x hx]
  have hnot : ∀ x ∈ L ++ R, ¬ s.LiesIn x ⟨start, end_, f⟩ := by
    rintro x hx ⟨h1, h2⟩
    dsimp only at h1 h2
    rcases List.mem_append.mp hx with hx | hx
    · have := hL x hx
      omega
    · have := hR x hx
      omega
  have hmeets : ∀ c ∈ L ++ T ++ R, s.Meets start end_ c → c ∈ T := by
    rintro c hc ⟨h1, h2⟩
    refine ((hmem c).mp hc).resolve_right fun hc => ?_
    rcases List.mem_append.mp hc with hc | hc
    · have := hL c hc
      omega
    · have := hR c hc
      omega
  refine ⟨hg.view, List.forall_mem_cons.mpr ⟨hle, h.proper⟩, List.forall_mem_cons.mpr
    ⟨⟨m, by simp, hnew⟩, fun g hgs => ?_⟩, fun x hx i => ?_⟩
  · obtain ⟨x, hx, hxg⟩ := h.placed g hgs
    rcases (hmem x).mp hx with hx | hx
    · exact ⟨m, by simp, hin x hx g hxg⟩
    · exact ⟨x, (hmem' x).mpr (.inr hx), (hout x hx g).mpr hxg⟩
  · rcases (hmem' x).mp hx with rfl | hx
    · -- the block that takes in the others
      rw [hg.flags i]
      constructor
      · rintro (hi | ⟨a, ha, -, hi⟩)
        · exact ⟨_, by simp, hnew, hi⟩
        · obtain ⟨g, hgs, hag, hi⟩ := (h.flags a (by simp [ha]) i).mp hi
          exact ⟨g, by simp [hgs], hin a ha g hag, hi⟩
      · rintro ⟨g, hgs, hxg, hi⟩
        rcases List.mem_cons.mp hgs with rfl | hgs
        · exact .inl hi
        · obtain ⟨y, hy, hyg⟩ := h.placed g hgs
          rcases (hmem y).mp hy with hyT | hy
          · have hbit := (h.flags y hy i).mpr ⟨g, hgs, hyg, hi⟩
            by_cases hlost : lost = some y
            · obtain ⟨-, h1, a, ha, h2, h3⟩ := hg.second y hlost
              have h4 := hj a (by simp [ha]) y (by simp [hyT]) ⟨hT a ha, h2⟩ ⟨hT y hyT, h1⟩ h3
              have h5 := or_eq_right_iff.mp h4 i hbit
              rw [Nat.testBit_or, Bool.or_eq_true, testBit_orFlags] at h5
              refine h5.imp_right fun ⟨v, hv, hvi⟩ => ?_
              obtain ⟨c, hc, rfl⟩ := List.mem_map.mp hv
              obtain ⟨hc, hcond⟩ := List.mem_filter.mp hc
              obtain ⟨hcy, hcm⟩ := of_decide_eq_true hcond
              refine ⟨c, hmeets c hc hcm, ?_, hvi⟩
              rw [hlost]
              exact fun he => hcy (Option.some.inj he).symm
            · exact .inr ⟨y, hyT, hlost, hbit⟩
          · have hne : y ≠ x := hg.view.nodes.ne y hy
            have hp := h.proper g hgs
            have hyg' := (hout y hy g).mpr hyg
            exfalso
            rcases hg.view.lt_or_lt ((hmem' y).mpr (.inr hy)) (by simp) hne with h1 | h1
            · have h2 := hyg'.2
              have h3 := hxg.1
              omega
            · have h2 := hyg'.1
              have h3 := hxg.2
              omega
    · -- another block
      rw [hg.pflags x hx, h.flags x ((hmem x).mpr (.inr hx)) i, List.exists_mem_cons_iff]
      constructor
      · rintro ⟨g, hgs, hxg, hi⟩
        exact .inr ⟨g, hgs, (hout x hx g).mpr hxg, hi⟩
      · rintro (⟨hxg, -⟩ | ⟨g, hgs, hxg, hi⟩)
        · exact absurd ((hout x hx _).mp hxg) (hnot x hx)
        · exact ⟨g, hgs, (hout x hx g).mp hxg, hi⟩

theorem Flagged.add (h : Flagged s fs ls segs) (hle : start ≤ end_)
    (hc : ¬ s.Crashes fs start end_) (hd : ¬ s.Dropped fs start end_) (hj : s.Joins fs start end_ f)
    (rqflags : ℕ) : ∃ t flags fs' ls', s.add start end_ f rqflags = some (t, flags) ∧
      Flagged t fs' ls' (⟨start, end_, f⟩ :: segs) := by
  obtain ⟨t, flags, h1, ⟨h2, -⟩ | ⟨L, T, R, ls', m, fresh, lost, rfl, hL, hT, hR, hg⟩⟩ :=
    h.view.add hle hc f rqflags
  · exact absurd h2 hd
  · exact ⟨t, flags, _, ls', h1, h.gathers hg hle hL hT hR hj⟩

/-! ### Clearing -/

/-- The block that is cut keeps only flags of segments that keep numbers. -/
def CutsWhole (s : ReassemblyQueue) (fs : List ℕ) (segs : List Segment) (seq : ℤ) : Prop :=
  ∀ x ∈ fs, s.startseq_ x ≤ seq → seq < s.endseq_ x →
    let flags := orFlags ((segs.filter fun g => seq < g.end_ ∧ s.LiesIn x g).map (·.tiflags))
    s.pflags_ x ||| flags = flags

theorem Flagged.clearto (h : Flagged s fs ls segs) {seq : ℤ} (hcut : s.CutsWhole fs segs seq) :
    ∃ t flag fs' ls', s.clearto seq = some (t, flag) ∧ Flagged t fs' ls' (trim seq segs) ∧
      orFlags ((cleared seq segs).map (·.tiflags)) ||| flag = flag := by
  obtain ⟨t, flag, D, fs', rfl, h1, h2, h3, h4, h5, h6, h7, -, h8⟩ := h.view.clearto seq
  have hplaced : ∀ g ∈ segs, seq < g.end_ → ∃ x ∈ fs', s.LiesIn x g := fun g hg hlt => by
    obtain ⟨x, hx, hxg⟩ := h.placed g hg
    rcases List.mem_append.mp hx with hx | hx
    · have h9 := h3 x hx
      have h10 := hxg.2
      omega
    · exact ⟨x, hx, hxg⟩
  have hin : ∀ x ∈ fs', ∀ g, s.LiesIn x g → t.LiesIn x { g with start := max seq g.start } := by
    rintro x hx g ⟨h9, h10⟩
    refine ⟨?_, by rwa [h6]⟩
    rw [h5 x hx]
    exact max_le_max le_rfl h9
  have htrim : ∀ g' ∈ trim seq segs, ∃ g ∈ segs, seq < g.end_ ∧
      g' = { g with start := max seq g.start } := fun g' hg' => by
    obtain ⟨g, hg, rfl⟩ := List.mem_map.mp hg'
    obtain ⟨hg, hlt⟩ := List.mem_filter.mp hg
    exact ⟨g, hg, of_decide_eq_true hlt, rfl⟩
  have hmem : ∀ g ∈ segs, seq < g.end_ →
      ({ g with start := max seq g.start } : Segment) ∈ trim seq segs := fun g hg hlt =>
    List.mem_map.mpr ⟨g, List.mem_filter.mpr ⟨hg, decide_eq_true hlt⟩, rfl⟩
  refine ⟨t, flag, fs', _, h1, ⟨h2, fun g' hg' => ?_, fun g' hg' => ?_, fun x hx i => ?_⟩, ?_⟩
  · obtain ⟨g, hg, hlt, rfl⟩ := htrim g' hg'
    exact max_le hlt.le (h.proper g hg)
  · obtain ⟨g, hg, hlt, rfl⟩ := htrim g' hg'
    obtain ⟨x, hx, hxg⟩ := hplaced g hg hlt
    exact ⟨x, hx, hin x hx g hxg⟩
  · rw [h7]
    constructor
    · intro hi
      by_cases hs : s.startseq_ x ≤ seq
      · have h9 := or_eq_right_iff.mp (hcut x (by simp [hx]) hs (h4 x hx)) i hi
        obtain ⟨v, hv, hvi⟩ := (testBit_orFlags _ i).mp h9
        obtain ⟨g, hg, rfl⟩ := List.mem_map.mp hv
        obtain ⟨hg, hcond⟩ := List.mem_filter.mp hg
        obtain ⟨hlt, hxg⟩ := of_decide_eq_true hcond
        exact ⟨_, hmem g hg hlt, hin x hx g hxg, hvi⟩
      · obtain ⟨g, hg, hxg, hi⟩ := (h.flags x (by simp [hx]) i).mp hi
        have h9 := h.proper g hg
        have h10 := hxg.1
        exact ⟨_, hmem g hg (by omega), hin x hx g hxg, hi⟩
    · rintro ⟨g', hg', hxg', hi⟩
      obtain ⟨g, hg, hlt, rfl⟩ := htrim g' hg'
      obtain ⟨y, hy, hyg⟩ := hplaced g hg hlt
      have hyg' := hin y hy g hyg
      have hxy : y = x := by
        by_contra hne
        have h9 : max seq g.start ≤ g.end_ := max_le hlt.le (h.proper g hg)
        rcases h2.lt_or_lt hy hx hne with h10 | h10
        · exact absurd ((h10.trans_le hxg'.1).trans_le h9) hyg'.2.not_gt
        · exact absurd ((h10.trans_le hyg'.1).trans_le h9) hxg'.2.not_gt
      subst hxy
      exact (h.flags y (by simp [hy]) i).mpr ⟨g, hg, hyg, hi⟩
  · rw [or_eq_right_iff]
    intro i hi
    obtain ⟨v, hv, hvi⟩ := (testBit_orFlags _ i).mp hi
    obtain ⟨g, hg, rfl⟩ := List.mem_map.mp hv
    obtain ⟨hg, hcond⟩ := List.mem_filter.mp hg
    obtain ⟨x, hx, hxg⟩ := h.placed g hg
    have h9 := h.proper g hg
    refine (h8 i).mpr ⟨x, hx, ?_, (h.flags x hx i).mpr ⟨g, hg, hxg, hvi⟩⟩
    rcases of_decide_eq_true hcond with h10 | h10
    · exact hxg.1.trans h10.le
    · exact hxg.1.trans (h9.trans h10)

/-! ### Steps and runs -/

/-- `add` aborts if the segment ends before its start. -/
def Op.Ordered : Op → Prop
  | .add start end_ _ _ => start ≤ end_
  | _ => True

/-- The operation loses no flags: no second block of a join has flags of its own, a segment without
a byte is not dropped, `add` returns, and what is cut off a block has no flags of its own. -/
def Carries (s : ReassemblyQueue) (segs : List Segment) : Op → Prop
  | .add start end_ tiflags _ => ¬ s.Crashes s.queued start end_ ∧ ¬ s.Dropped s.queued start end_ ∧
      s.Joins s.queued start end_ tiflags
  | .clearto seq => s.CutsWhole s.queued segs seq
  | .cleartonxt => s.CutsWhole s.queued segs s.rcv_nxt_
  | _ => True

/-- What a step returns has the flags of all segments that lose numbers by it. -/
def Returned (s : ReassemblyQueue) (segs : List Segment) (flags : ℕ) : Op → Prop
  | .clearto seq => orFlags ((cleared seq segs).map (·.tiflags)) ||| flags = flags
  | .cleartonxt => orFlags ((cleared s.rcv_nxt_ segs).map (·.tiflags)) ||| flags = flags
  | _ => True

theorem Flagged.step (h : Flagged s fs ls segs) {op : Op} (hop : op.Ordered)
    (hc : s.Carries segs op) : ∃ t flags fs' ls', s.step op = some (t, flags) ∧
      Flagged t fs' ls' (segments s segs op) ∧ Returned s segs flags op := by
  cases op with
  | add start end_ tiflags rqflags =>
    rw [Carries, h.view.queued_eq] at hc
    obtain ⟨t, flags, fs', ls', h1, h2⟩ := h.add hop hc.1 hc.2.1 hc.2.2 rqflags
    exact ⟨t, flags, fs', ls', h1, h2, trivial⟩
  | clear =>
    obtain ⟨t, h1, h2, -⟩ := h.view.clear
    exact ⟨t, 0, [], [], by rw [ReassemblyQueue.step, h1]; rfl,
      ⟨h2, by simp [segments], by simp [segments], by simp⟩, trivial⟩
  | clearto seq =>
    rw [Carries, h.view.queued_eq] at hc
    exact h.clearto hc
  | cleartonxt =>
    rw [Carries, h.view.queued_eq] at hc
    exact h.clearto hc
  | rcvnxt seq =>
    exact ⟨_, 0, fs, ls, rfl, ⟨h.view.rcvnxt seq, h.proper, h.placed, h.flags⟩, trivial⟩

theorem Flagged.orFlags_eq (h : Flagged s fs ls segs) {x : ℕ} (hx : x ∈ fs) :
    s.pflags_ x = orFlags ((segs.filter (s.LiesIn x)).map (·.tiflags)) := by
  apply Nat.eq_of_testBit_eq
  intro i
  rw [Bool.eq_iff_iff, h.flags x hx i, testBit_orFlags]
  constructor
  · rintro ⟨g, hg, hxg, hi⟩
    exact ⟨_, List.mem_map.mpr ⟨g, List.mem_filter.mpr ⟨hg, decide_eq_true hxg⟩, rfl⟩, hi⟩
  · rintro ⟨v, hv, hi⟩
    obtain ⟨g, hg, rfl⟩ := List.mem_map.mp hv
    obtain ⟨hg, hxg⟩ := List.mem_filter.mp hg
    exact ⟨g, hg, of_decide_eq_true hxg, hi⟩

/-- After every run from an empty queue whose steps lose no flags, each block has exactly the flags
of the segments in it; and the next step, if it loses none either, returns the flags of all segments
that it takes numbers from. -/
theorem flags_kept (rcvnxt : ℤ) {ops : List Op} {op : Op}
    (hops : Machine.Admits (Machine.ghost ReassemblyQueue.step segments)
      (fun p op => op.Ordered ∧ p.1.Carries p.2 op) (new rcvnxt, []) (ops ++ [op])) :
    ∃ s segs os t segs' flags, Machine.run (Machine.ghost ReassemblyQueue.step segments)
        (new rcvnxt, []) ops = some ((s, segs), os) ∧
      Machine.ghost ReassemblyQueue.step segments (s, segs) op = some ((t, segs'), flags) ∧
      (∀ x ∈ t.queued, t.pflags_ x = orFlags ((segs'.filter (t.LiesIn x)).map (·.tiflags))) ∧
      Returned s segs flags op := by
  obtain ⟨⟨s, segs⟩, os, h1, ⟨fs, ls, h2⟩, h3, h4⟩ := Machine.run_concat
    (I := fun p : ReassemblyQueue × List Segment => ∃ fs ls, Flagged p.1 fs ls p.2)
    (fun p op ⟨fs, ls, h⟩ hop => by
      obtain ⟨t, flags, fs', ls', h5, h6, -⟩ := h.step hop.1 hop.2
      exact ⟨_, flags, Machine.ghost_eq_some h5 segments p.2, fs', ls', h6⟩)
    ⟨[], [], new_view rcvnxt, by simp, by simp, by simp⟩ hops
  obtain ⟨t, flags, fs', ls', h5, h6, h7⟩ := h2.step h3 h4
  refine ⟨s, segs, os, t, _, flags, h1, Machine.ghost_eq_some h5 segments segs, fun x hx => ?_, h7⟩
  rw [h6.view.queued_eq] at hx
  exact h6.orFlags_eq hx

instance (op : Op) : Decidable op.Ordered := by
  cases op <;> unfold Op.Ordered <;> infer_instance

instance (s : ReassemblyQueue) (start end_ : ℤ) (x : ℕ) : Decidable (s.Survives start end_ x) :=
  inferInstanceAs (Decidable (_ ∧ _))

instance (s : ReassemblyQueue) (fs : List ℕ) (start end_ : ℤ) (f : ℕ) :
    Decidable (s.Joins fs start end_ f) := by
  unfold Joins
  infer_instance

instance (s : ReassemblyQueue) (fs : List ℕ) (segs : List Segment) (seq : ℤ) :
    Decidable (s.CutsWhole fs segs seq) := by
  unfold CutsWhole
  infer_instance

instance (s : ReassemblyQueue) (segs : List Segment) (op : Op) : Decidable (s.Carries segs op) := by
  cases op <;> unfold Carries <;> infer_instance

/-- The last segment comes between two blocks, and the flag 1 is only in the first one. -/
theorem flags_kept_join : ∃ s segs os t segs' flags,
    Machine.run (Machine.ghost ReassemblyQueue.step segments) (new 0, [])
      [.add 10 20 17 0, .add 30 40 16 0, .add 20 30 16 0, .add 0 10 16 0] = some ((s, segs), os) ∧
    Machine.ghost ReassemblyQueue.step segments (s, segs) .cleartonxt = some ((t, segs'), flags) ∧
    (∀ x ∈ t.queued, t.pflags_ x = orFlags ((segs'.filter (t.LiesIn x)).map (·.tiflags))) ∧
    Returned s segs flags .cleartonxt :=
  flags_kept 0 (by decide)

/-- The flag 1 of the second block is lost when the hole before it is filled. -/
theorem flags_lost : ¬ ∀ (rcvnxt : ℤ) (ops : List Op) (op : Op), (∀ o ∈ ops ++ [op], o.Ordered) →
    ∃ s segs os t segs' flags, Machine.run (Machine.ghost ReassemblyQueue.step segments)
        (new rcvnxt, []) ops = some ((s, segs), os) ∧
      Machine.ghost ReassemblyQueue.step segments (s, segs) op = some ((t, segs'), flags) ∧
      (∀ x ∈ t.queued, t.pflags_ x = orFlags ((segs'.filter (t.LiesIn x)).map (·.tiflags))) ∧
      Returned s segs flags op := by
  intro hall
  obtain ⟨s, segs, os, t, segs', flags, h1, h2, h3, -⟩ :=
    hall 0 [.add 10 20 16 0, .add 30 40 17 0] (.add 20 30 16 0) (by decide)
  have hlost : ((Machine.run (Machine.ghost ReassemblyQueue.step segments) (new 0, [])
      [.add 10 20 16 0, .add 30 40 17 0]).bind fun r =>
        (Machine.ghost ReassemblyQueue.step segments r.1 (.add 20 30 16 0)).map fun q =>
          decide (∀ x ∈ q.1.1.queued, q.1.1.pflags_ x =
            orFlags ((q.1.2.filter (q.1.1.LiesIn x)).map (·.tiflags)))) = some false := by decide
  rw [h1, Option.bind_some, h2, Option.map_some, Option.some_inj, decide_eq_false_iff_not] at hlost
  exact hlost h3

end Ns2.ReassemblyQueue
