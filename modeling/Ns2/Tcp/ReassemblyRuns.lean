import Ns2.Tcp.ReassemblyAdd

/-! The runs of a reassembly queue: what is cleared, and the set that the blocks cover after all
of it. -/

namespace Ns2.ReassemblyQueue

open Intervals

variable {s t : ReassemblyQueue} {fs ls ls' L T R : List ℕ} {m : ℕ} {start end_ : ℤ} {f : ℕ}

/-- Writing `rcv_nxt_` changes no block. -/
theorem View.rcvnxt (h : View s fs ls) (seq : ℤ) : View { s with rcv_nxt_ := seq } fs ls :=
  ⟨h.nodes.congr rfl rfl rfl rfl rfl, h.proper, h.apart, h.total⟩

theorem new_view (rcvnxt : ℤ) : View (new rcvnxt) [] [] :=
  ⟨⟨⟨.nil rfl rfl, .nil rfl rfl, by simp, by simp, by simp [new], by simp [new], by simp [new]⟩,
    .nil⟩, by simp, .nil, rfl⟩

/-! ### The blocks of a state -/

/-- The nodes on a chain of pointers. -/
def chain (next : ℕ → Option ℕ) : ℕ → Option ℕ → List ℕ
  | 0, _ => []
  | _ + 1, none => []
  | fuel + 1, some p => p :: chain next fuel (next p)

/-- The blocks in the order of the queue. -/
def queued (s : ReassemblyQueue) : List ℕ := chain s.fifo.next s.brk s.fifo.head

/-- The blocks in the order of the stack. -/
def stacked (s : ReassemblyQueue) : List ℕ := chain s.lifo.next s.brk s.lifo.head

theorem chain_eq {d : DList ℕ} {l : List ℕ} (h : d.Rep l) {fuel : ℕ} (hfuel : l.length ≤ fuel) :
    chain d.next fuel d.head = l := by
  have hgen : ∀ A B, l = A ++ B → B.length ≤ fuel → chain d.next fuel B.head? = B := by
    clear hfuel
    induction fuel with
    | zero =>
      intro A B _ hB
      obtain rfl := List.length_eq_zero_iff.mp (Nat.le_zero.mp hB)
      rfl
    | succ fuel ih =>
      intro A B hl hB
      cases B with
      | nil => rfl
      | cons b B =>
        have hnext : d.next b = B.head? := (hl ▸ h).next
        rw [List.head?_cons, chain, hnext, ih (A ++ [b]) B (by simp [hl]) (by simpa using hB)]
  rw [h.head]
  exact hgen [] l rfl hfuel

theorem View.queued_eq (h : View s fs ls) : s.queued = fs := chain_eq h.nodes.fifo h.nodes.length_le

theorem View.stacked_eq (h : View s fs ls) : s.stacked = ls :=
  chain_eq h.nodes.links.lifo (h.nodes.perm.length_eq.trans_le h.nodes.length_le)

/-! ### Clearing -/

theorem View.clear (h : View s fs ls) : ∃ t, s.clear = some t ∧ View t [] [] ∧
    t.rcv_nxt_ = s.rcv_nxt_ := by
  obtain ⟨t, h1, h2, h3, h4⟩ := h.nodes.clear
  exact ⟨t, h1, ⟨h2, by simp, .nil, h3⟩, h4⟩

/-- The loop takes out the blocks that end at `seq` or before, and gathers their flags. -/
theorem View.clearToLoop (h : View s fs ls) (seq : ℤ) {fuel : ℕ} (hfuel : fs.length < fuel)
    (flag : ℕ) : ∃ t flag' D fs', fs = D ++ fs' ∧
      ReassemblyQueue.clearToLoop seq fuel fs.head? s flag = some (t, flag', fs'.head?) ∧
      View t fs' (ls.filter (· ∉ D)) ∧ t.startseq_ = s.startseq_ ∧ t.endseq_ = s.endseq_ ∧
      t.pflags_ = s.pflags_ ∧ t.rcv_nxt_ = s.rcv_nxt_ ∧ (∀ a ∈ D, s.endseq_ a ≤ seq) ∧
      (∀ p, fs'.head? = some p → seq < s.endseq_ p) ∧
      ∀ i, flag'.testBit i = true ↔
        flag.testBit i = true ∨ ∃ a ∈ D, (s.pflags_ a).testBit i = true := by
  induction fs generalizing s ls fuel flag with
  | nil =>
    obtain ⟨fuel, rfl⟩ : ∃ k, fuel = k + 1 := ⟨fuel - 1, by omega⟩
    exact ⟨s, flag, [], [], rfl, rfl, by simpa using h, rfl, rfl, rfl, rfl, by simp, by simp,
      by simp⟩
  | cons p fs ih =>
    obtain ⟨fuel, rfl⟩ : ∃ k, fuel = k + 1 := ⟨fuel - 1, by omega⟩
    have hlive := h.nodes.live p (by simp)
    rw [List.head?_cons, ReassemblyQueue.clearToLoop, if_neg (by simp [hlive])]
    by_cases hp : s.endseq_ p ≤ seq
    · have hs : Nodes { s with total_ := s.total_ - (s.endseq_ p - s.startseq_ p) } ([] ++ p :: fs)
          ls := h.nodes.congr rfl rfl rfl rfl rfl
      obtain ⟨fifo, lifo, hint, h1, h2⟩ := hs.unlink
      have hnext : s.fifo.next p = fs.head? := @DList.Rep.next _ _ [] _ _ h.nodes.fifo
      have hnd := h.nodes.perm.nodup_iff.mpr h.nodes.nodup
      obtain ⟨t, flag', D, fs', rfl, g1, g2, g3, g4, g5, g6, g7, g8, g9⟩ :=
        ih (View.freed (L := []) h h2) (by simpa using hfuel) (flag ||| s.pflags_ p)
      refine ⟨t, flag', p :: D, fs', rfl, ?_, ?_, g3, g4, g5, g6,
        List.forall_mem_cons.mpr ⟨hp, g7⟩, g8, fun i => ?_⟩
      · rw [if_pos hp]
        dsimp only
        rw [h1, Option.bind_some, hnext]
        exact g1
      · rw [hnd.erase_eq_filter, List.filter_filter] at g2
        have hfilter : (ls.filter fun x => decide (x ∉ D) && x != p) = ls.filter (· ∉ p :: D) :=
          List.filter_congr fun x _ => by
            rw [Bool.eq_iff_iff]
            simp [and_comm]
        rwa [hfilter] at g2
      · rw [g9 i, Nat.testBit_or, Bool.or_eq_true, List.exists_mem_cons_iff, or_assoc]
        rfl
    · rw [if_neg hp]
      refine ⟨s, flag, [], p :: fs, rfl, rfl, by simpa using h, rfl, rfl, rfl, rfl, by simp, ?_,
        by simp⟩
      intro r hr
      obtain rfl : p = r := Option.some.inj hr
      exact not_le.mp hp

/-- The blocks that are left end behind `seq` and start there, the flags of those that lose a
number are returned. -/
theorem View.clearto (h : View s fs ls) (seq : ℤ) : ∃ t flag D fs', fs = D ++ fs' ∧
    s.clearto seq = some (t, flag) ∧ View t fs' (ls.filter (· ∉ D)) ∧
    (∀ a ∈ D, s.endseq_ a ≤ seq) ∧ (∀ a ∈ fs', seq < s.endseq_ a) ∧
    (∀ a ∈ fs', t.startseq_ a = max seq (s.startseq_ a)) ∧ t.endseq_ = s.endseq_ ∧
    t.pflags_ = s.pflags_ ∧ t.rcv_nxt_ = s.rcv_nxt_ ∧
    ∀ i, flag.testBit i = true ↔
      ∃ a ∈ fs, s.startseq_ a ≤ seq ∧ (s.pflags_ a).testBit i = true := by
  have hlen := h.nodes.length_le
  obtain ⟨t, flag, D, fs', rfl, h1, h2, h3, h4, h5, h6, h7, h8, h9⟩ :=
    h.clearToLoop seq (Nat.lt_succ_of_le hlen) 0
  have hD : ∀ a ∈ D, s.startseq_ a ≤ seq := fun a ha =>
    (h.proper a (by simp [ha])).trans (h7 a ha)
  rw [ReassemblyQueue.clearto, h.nodes.fifo.head, h1]
  cases fs' with
  | nil =>
    refine ⟨t, flag, D, [], rfl, rfl, h2, h7, by simp, by simp, h4, h5, h6, fun i => ?_⟩
    rw [h9 i, List.append_nil, Nat.zero_testBit]
    constructor
    · rintro (hi | ⟨a, ha, hi⟩)
      · cases hi
      · exact ⟨a, ha, hD a ha, hi⟩
    · rintro ⟨a, ha, -, hi⟩
      exact .inr ⟨a, ha, hi⟩
  | cons p fs' =>
    have hp : seq < s.endseq_ p := h8 p rfl
    have hpx : ∀ x ∈ fs', s.endseq_ p < s.startseq_ x := fun x hx =>
      View.lt (L := D ++ [p]) (by simpa using h) (by simp) hx
    have hne : ∀ x ∈ fs', x ≠ p := fun x hx => Nodes.ne (L := []) h2.nodes x hx
    have hend : ∀ a ∈ p :: fs', seq < s.endseq_ a := List.forall_mem_cons.mpr ⟨hp, fun x hx => by
      have h10 := hpx x hx
      have h11 := h.proper x (by simp [hx])
      omega⟩
    have hbits : ∀ i, (∃ a ∈ D, (s.pflags_ a).testBit i = true) ∨
        s.startseq_ p ≤ seq ∧ (s.pflags_ p).testBit i = true ↔
          ∃ a ∈ D ++ p :: fs', s.startseq_ a ≤ seq ∧ (s.pflags_ a).testBit i = true := by
      intro i
      constructor
      · rintro (⟨a, ha, hi⟩ | ⟨hs, hi⟩)
        · exact ⟨a, by simp [ha], hD a ha, hi⟩
        · exact ⟨p, by simp, hs, hi⟩
      · rintro ⟨a, ha, hs, hi⟩
        rcases List.mem_append.mp ha with ha | ha
        · exact .inl ⟨a, ha, hi⟩
        · rcases List.mem_cons.mp ha with rfl | ha
          · exact .inr ⟨hs, hi⟩
          · have := hpx a ha
            omega
    rw [Option.map_some, List.head?_cons]
    dsimp only
    by_cases hs : t.startseq_ p ≤ seq
    · -- the first block is trimmed
      rw [if_pos ⟨hs, h4 ▸ hp⟩]
      rw [h3] at hs ⊢
      have hkeep : ∀ x ∈ fs', Function.update s.startseq_ p seq x = s.startseq_ x := fun x hx =>
        Function.update_of_ne (hne x hx) _ _
      have hself : Function.update s.startseq_ p seq p = seq := Function.update_self _ _ _
      obtain ⟨g1, g2, g3, g4⟩ := h2
      rw [h3, h4] at g2 g3 g4
      rw [List.pairwise_cons] at g3
      refine ⟨_, _, D, p :: fs', rfl, rfl, ⟨g1.congr rfl rfl rfl rfl rfl, ?_, ?_, ?_⟩, h7, hend, ?_,
        h4, h5, h6, fun i => ?_⟩
      · rw [h4]
        refine List.forall_mem_cons.mpr ⟨hself.trans_le hp.le, fun x hx => ?_⟩
        exact (hkeep x hx).trans_le (g2 x (List.mem_cons_of_mem p hx))
      · rw [h4]
        refine List.pairwise_cons.mpr ⟨fun x hx => (hpx x hx).trans_eq (hkeep x hx).symm, ?_⟩
        exact g3.2.imp_of_mem fun {a b} _ hb hab => hab.trans_eq (hkeep b hb).symm
      · change t.total_ - (seq - s.startseq_ p) =
          size (Function.update s.startseq_ p seq) t.endseq_ (p :: fs')
        rw [h4, size_cons, hself, size_congr hkeep fun _ _ => rfl, g4, size_cons]
        omega
      · refine List.forall_mem_cons.mpr ⟨?_, fun x hx => ?_⟩
        · exact hself.trans (max_eq_left hs).symm
        · have h10 := hpx x hx
          exact (hkeep x hx).trans (max_eq_right (by omega)).symm
      · rw [Nat.testBit_or, Bool.or_eq_true, h9 i, Nat.zero_testBit, h5, ← hbits i]
        simp [hs]
    · rw [if_neg fun hh => hs hh.1]
      rw [h3, not_le] at hs
      refine ⟨t, flag, D, p :: fs', rfl, rfl, h2, h7, hend, ?_, h4, h5, h6, fun i => ?_⟩
      · refine List.forall_mem_cons.mpr ⟨?_, fun x hx => ?_⟩
        · rw [h3, max_eq_right hs.le]
        · have h10 := hpx x hx
          rw [h3, max_eq_right (by omega)]
      · rw [h9 i, Nat.zero_testBit, ← hbits i]
        simp [hs.not_ge]

/-! ### The set that the blocks cover -/

theorem cover_clearto {D : List ℕ} {seq : ℤ} (hD : ∀ a ∈ D, s.endseq_ a ≤ seq)
    (hst : ∀ a ∈ fs, t.startseq_ a = max seq (s.startseq_ a)) (hen : t.endseq_ = s.endseq_) :
    cover t.startseq_ t.endseq_ fs = cover s.startseq_ s.endseq_ (D ++ fs) ∩ Set.Ici seq := by
  ext i
  simp only [Intervals.cover, Set.mem_ofPred_eq, Set.mem_inter_iff, Set.mem_Ici, hen]
  constructor
  · rintro ⟨a, ha, hi⟩
    rw [hst a ha] at hi
    exact ⟨⟨a, by simp [ha], (le_max_right _ _).trans hi.1, hi.2⟩, (le_max_left _ _).trans hi.1⟩
  · rintro ⟨⟨a, ha, hi⟩, hle⟩
    rcases List.mem_append.mp ha with ha | ha
    · have := hD a ha
      omega
    · exact ⟨a, ha, (hst a ha).trans_le (max_le hle hi.1), hi.2⟩

/-- The blocks are sorted, not empty and never adjacent, they cover `S`, and `total_` is their
length. -/
structure Blocks (s : ReassemblyQueue) (fs : List ℕ) (S : Set ℤ) : Prop where
  holds : Holds s fs
  normal : Normal s.startseq_ s.endseq_ fs
  cover : cover s.startseq_ s.endseq_ fs = S
  total : s.total_ = size s.startseq_ s.endseq_ fs

theorem Blocks.view {S : Set ℤ} (h : Blocks s fs S) : ∃ ls, View s fs ls := by
  obtain ⟨ls, hls, hp⟩ := h.holds
  exact ⟨ls, ⟨hls, hp⟩, fun a ha => (h.normal.pos a ha).le, h.normal.apart, h.total⟩

theorem View.blocks (h : View s fs ls) (hpos : ∀ a ∈ fs, s.startseq_ a < s.endseq_ a) {S : Set ℤ}
    (hS : Intervals.cover s.startseq_ s.endseq_ fs = S) : Blocks s fs S :=
  ⟨⟨ls, h.nodes.links, h.nodes.perm⟩, ⟨hpos, h.apart⟩, hS, h.total⟩

/-- The block that takes in others covers what they covered, and the segment. -/
theorem Gathers.cover {fresh : Bool} {lost : Option ℕ}
    (h : Gathers s t L T R ls ls' m fresh lost start end_ f)
    (hT : ∀ x ∈ T, s.Meets start end_ x) :
    Intervals.cover t.startseq_ t.endseq_ (L ++ m :: R) =
      Intervals.cover s.startseq_ s.endseq_ (L ++ T ++ R) ∪ Set.Ico start end_ := by
  have hL := cover_congr (fun x hx => h.startseq x (List.mem_append_left R hx)) fun x hx =>
    h.endseq x (List.mem_append_left R hx)
  have hR := cover_congr (fun x hx => h.startseq x (List.mem_append_right L hx)) fun x hx =>
    h.endseq x (List.mem_append_right L hx)
  have hm : Set.Ico (t.startseq_ m) (t.endseq_ m) =
      Intervals.cover s.startseq_ s.endseq_ T ∪ Set.Ico start end_ := by
    ext i
    simp only [Set.mem_Ico, Set.mem_union, Intervals.cover, Set.mem_ofPred_eq, h.lo i,
      Int.lt_iff_add_one_le, h.hi (i + 1)]
    constructor
    · rintro ⟨h1, h2⟩
      by_cases h3 : i < start
      · obtain ⟨a, ha, h4⟩ := h1.resolve_left h3.not_ge
        exact .inl ⟨a, ha, h4, h3.trans_le (hT a ha).2⟩
      · by_cases h4 : i < end_
        · exact .inr ⟨not_lt.mp h3, h4⟩
        · obtain ⟨a, ha, h5⟩ := h2.resolve_left h4
          exact .inl ⟨a, ha, (hT a ha).1.trans (not_lt.mp h4), h5⟩
    · rintro (⟨a, ha, h1, h2⟩ | ⟨h1, h2⟩)
      · exact ⟨.inr ⟨a, ha, h1⟩, .inr ⟨a, ha, h2⟩⟩
      · exact ⟨.inl h1, .inl h2⟩
  rw [cover_append, cover_cons, cover_append, cover_append, hm, hL, hR]
  ext i
  simp only [Set.mem_union]
  tauto

/-- A segment that is not empty leaves blocks that are not empty. -/
theorem Blocks.gathers {fresh : Bool} {lost : Option ℕ} {S : Set ℤ}
    (h : Blocks s (L ++ T ++ R) S) (hg : Gathers s t L T R ls ls' m fresh lost start end_ f)
    (hT : ∀ x ∈ T, s.Meets start end_ x) (hlt : start < end_) :
    Blocks t (L ++ m :: R) (S ∪ Set.Ico start end_) := by
  refine hg.view.blocks (fun a ha => ?_) ?_
  · rcases List.mem_cons.mp (List.perm_middle.mem_iff.mp ha) with rfl | ha
    · have h2 := (hg.lo start).mpr (.inl le_rfl)
      have h3 := (hg.hi end_).mpr (.inl le_rfl)
      omega
    · rw [hg.startseq a ha, hg.endseq a ha]
      apply h.normal.pos
      simp only [List.mem_append] at ha ⊢
      tauto
  · rw [hg.cover hT, h.cover]

/-- A segment that is not empty is always taken in. -/
theorem Blocks.add_gathers {S : Set ℤ} (h : Blocks s fs S) (hlt : start < end_)
    (tiflags rqflags : ℕ) : ∃ t flags, s.add start end_ tiflags rqflags = some (t, flags) ∧
      ∃ L T R ls ls' m fresh lost, fs = L ++ T ++ R ∧ (∀ x ∈ T, s.Meets start end_ x) ∧
        Gathers s t L T R ls ls' m fresh lost start end_ tiflags := by
  obtain ⟨ls, hv⟩ := h.view
  have hc : ¬ s.Crashes fs start end_ := fun ⟨h1, x, hx, hxe⟩ => by
    have h2 := (h1 x hx).1
    have h3 := h.normal.pos x hx
    omega
  obtain ⟨t, flags, h1, ⟨h2, -⟩ | ⟨L, T, R, ls', m, fresh, lost, hfs, -, hT, -, hg⟩⟩ :=
    hv.add hlt.le hc tiflags rqflags
  · exact absurd h2.1 hlt.ne
  · exact ⟨t, flags, h1, L, T, R, ls, ls', m, fresh, lost, hfs, hT, hg⟩

theorem Blocks.add {S : Set ℤ} (h : Blocks s fs S) (hlt : start < end_) (tiflags rqflags : ℕ) :
    ∃ t flags fs', s.add start end_ tiflags rqflags = some (t, flags) ∧
      Blocks t fs' (S ∪ Set.Ico start end_) := by
  obtain ⟨t, flags, h1, L, T, R, ls, ls', m, fresh, lost, rfl, hT, hg⟩ :=
    h.add_gathers hlt tiflags rqflags
  exact ⟨t, flags, L ++ m :: R, h1, h.gathers hg hT hlt⟩

theorem Blocks.clear {S : Set ℤ} (h : Blocks s fs S) : ∃ t, s.clear = some t ∧ Blocks t [] ∅ := by
  obtain ⟨ls, hv⟩ := h.view
  obtain ⟨t, h1, h2, -⟩ := hv.clear
  exact ⟨t, h1, h2.blocks (by simp) cover_nil⟩

theorem Blocks.clearto {S : Set ℤ} (h : Blocks s fs S) (seq : ℤ) :
    ∃ t flag fs', s.clearto seq = some (t, flag) ∧ Blocks t fs' (S ∩ Set.Ici seq) := by
  obtain ⟨ls, hv⟩ := h.view
  obtain ⟨t, flag, D, fs', rfl, h1, h2, h3, h4, h5, h6, -⟩ := hv.clearto seq
  refine ⟨t, flag, fs', h1, h2.blocks (fun a ha => ?_) ?_⟩
  · rw [h5 a ha, h6]
    exact max_lt (h4 a ha) (h.normal.pos a (by simp [ha]))
  · rw [← h.cover]
    exact cover_clearto h3 h5 h6

/-! ### Runs -/

/-- The numbers that are covered after the operation, by what was added and removed. -/
def covered (s : ReassemblyQueue) (S : Set ℤ) : Op → Set ℤ
  | .add start end_ _ _ => S ∪ Set.Ico start end_
  | .clear => ∅
  | .clearto seq => S ∩ Set.Ici seq
  | .cleartonxt => S ∩ Set.Ici s.rcv_nxt_
  | .rcvnxt _ => S

/-- The numbers that are covered after a run. -/
def coveredBy (s : ReassemblyQueue) (S : Set ℤ) : List Op → Set ℤ
  | [] => S
  | op :: ops =>
    match s.step op with
    | some (t, _) => coveredBy t (covered s S op) ops
    | none => covered s S op

/-- The segments that are added are not empty. -/
def Op.Proper : Op → Prop
  | .add start end_ _ _ => start < end_
  | _ => True

theorem Blocks.step {s : ReassemblyQueue} {fs : List ℕ} {S : Set ℤ} (h : Blocks s fs S) {op : Op}
    (hop : op.Proper) :
    ∃ t flags fs', s.step op = some (t, flags) ∧ Blocks t fs' (covered s S op) := by
  cases op with
  | add start end_ tiflags rqflags => exact h.add hop tiflags rqflags
  | clear =>
    obtain ⟨t, h1, h2⟩ := h.clear
    exact ⟨t, 0, [], by rw [ReassemblyQueue.step, h1]; rfl, h2⟩
  | clearto seq => exact h.clearto seq
  | cleartonxt => exact h.clearto s.rcv_nxt_
  | rcvnxt seq =>
    obtain ⟨ls, hv⟩ := h.view
    exact ⟨_, 0, fs, rfl, (hv.rcvnxt seq).blocks h.normal.pos h.cover⟩

theorem Blocks.run {s : ReassemblyQueue} {fs : List ℕ} {S : Set ℤ} (h : Blocks s fs S)
    {ops : List Op} (hops : ∀ op ∈ ops, op.Proper) :
    ∃ t os fs', Machine.run ReassemblyQueue.step s ops = some (t, os) ∧
      Blocks t fs' (coveredBy s S ops) := by
  induction ops generalizing s fs S with
  | nil => exact ⟨s, [], fs, rfl, h⟩
  | cons op ops ih =>
    obtain ⟨t, flags, fs', h1, h2⟩ := h.step (hops op (by simp))
    obtain ⟨u, os, fs'', h3, h4⟩ := ih h2 fun o ho => hops o (List.mem_cons_of_mem op ho)
    refine ⟨u, flags :: os, fs'', ?_, ?_⟩
    · rw [Machine.run_cons_some h1, h3]
      rfl
    · rw [coveredBy, h1]
      exact h4

theorem new_blocks (rcvnxt : ℤ) : Blocks (new rcvnxt) [] ∅ :=
  (new_view rcvnxt).blocks (by simp) cover_nil

/-- Every run of a new queue returns, following no null pointer and no freed node, and leaves the
same nodes on both lists: sorted blocks, not empty, disjoint and never adjacent, which cover what
was added and not removed, and whose lengths `total_` counts. -/
theorem queue_covers (rcvnxt : ℤ) {ops : List Op} (hops : ∀ op ∈ ops, op.Proper) :
    ∃ s os fs ls, Machine.run ReassemblyQueue.step (new rcvnxt) ops = some (s, os) ∧
      s.fifo.Rep fs ∧ s.lifo.Rep ls ∧ ls.Perm fs ∧ (∀ a ∈ fs, s.live a = true) ∧
      (∀ a ∈ fs, s.startseq_ a < s.endseq_ a) ∧
      fs.Pairwise (fun a b => s.endseq_ a < s.startseq_ b) ∧
      (∀ i, (∃ a ∈ fs, s.startseq_ a ≤ i ∧ i < s.endseq_ a) ↔ i ∈ coveredBy (new rcvnxt) ∅ ops) ∧
      s.total_ = (fs.map fun a => s.endseq_ a - s.startseq_ a).sum := by
  obtain ⟨s, os, fs, h1, h2⟩ := (new_blocks rcvnxt).run hops
  obtain ⟨ls, hls, hp⟩ := h2.holds
  refine ⟨s, os, fs, ls, h1, hls.fifo, hls.lifo, hp, hls.live, h2.normal.pos, h2.normal.apart, ?_,
    h2.total⟩
  intro i
  rw [← h2.cover]
  rfl

theorem queue_covers_hole : ∃ s os fs ls, Machine.run ReassemblyQueue.step (new 0)
      [.add 0 2 0 0, .add 4 6 0 0, .add 1 5 0 0, .cleartonxt] = some (s, os) ∧
    s.fifo.Rep fs ∧ s.lifo.Rep ls ∧ ls.Perm fs ∧ (∀ a ∈ fs, s.live a = true) ∧
    (∀ a ∈ fs, s.startseq_ a < s.endseq_ a) ∧
    fs.Pairwise (fun a b => s.endseq_ a < s.startseq_ b) ∧
    (∀ i, (∃ a ∈ fs, s.startseq_ a ≤ i ∧ i < s.endseq_ a) ↔
      i ∈ coveredBy (new 0) ∅ [.add 0 2 0 0, .add 4 6 0 0, .add 1 5 0 0, .cleartonxt]) ∧
    s.total_ = (fs.map fun a => s.endseq_ a - s.startseq_ a).sum :=
  queue_covers 0 (by simp [Op.Proper])

end Ns2.ReassemblyQueue
