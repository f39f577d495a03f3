import Ns2.Tcp.ReassemblyFlags

/-! The blocks that a reassembly queue reports: the most recent one comes first, unless an older
block has grown below others on the stack. -/

namespace Ns2.ReassemblyQueue

variable {s t : ReassemblyQueue} {fs ls ls' L T R : List ℕ} {m : ℕ} {start end_ : ℤ} {f : ℕ}
  {segs : List Segment}

/-- The age of the last segment that lies in a block. -/
def age (s : ReassemblyQueue) (segs : List Segment) (x : ℕ) : ℕ := segs.findIdx (s.LiesIn x)

theorem View.gensack (h : View s fs ls) (maxsblock : ℕ) :
    s.gensack maxsblock = some ((ls.take maxsblock).map fun x => (s.startseq_ x, s.endseq_ x)) := by
  have hgen : ∀ A B, ls = A ++ B → s.gensackLoop maxsblock B.head? =
      some ((B.take maxsblock).map fun x => (s.startseq_ x, s.endseq_ x)) := by
    induction maxsblock with
    | zero => exact fun A B _ => rfl
    | succ maxsblock ih =>
      intro A B hl
      cases B with
      | nil => rfl
      | cons b B =>
        have hnext : s.lifo.next b = B.head? := (hl ▸ h.nodes.links.lifo).next
        have hlive := h.nodes.links.live_lifo b (by simp [hl])
        rw [List.head?_cons, gensackLoop, if_pos hlive, hnext, ih (A ++ [b]) B (by simp [hl])]
        rfl
  rw [ReassemblyQueue.gensack, h.nodes.links.lifo.head]
  exact hgen [] ls rfl

/-- The stack is in the order of the ages. -/
structure Recent (s : ReassemblyQueue) (fs ls : List ℕ) (segs : List Segment) : Prop where
  view : View s fs ls
  order : ls.Pairwise fun x y => s.age segs x < s.age segs y

/-- The block that a segment is added to lies above all blocks that the segment does not meet. -/
def OnTop (s : ReassemblyQueue) (fs ls : List ℕ) (start end_ : ℤ) : Prop :=
  ∀ m ∈ fs, s.Survives start end_ m →
    (∀ a ∈ fs, s.Survives start end_ a → a = m ∨ s.endseq_ m < s.startseq_ a) →
      ∀ y ∈ ls.takeWhile (· ≠ m), s.Meets start end_ y

/-- The block that has taken in the segment is on top of the stack. -/
theorem Gathers.stack_eq {fresh : Bool} {lost : Option ℕ} (h : View s (L ++ T ++ R) ls)
    (hg : Gathers s t L T R ls ls' m fresh lost start end_ f) (hT : ∀ x ∈ T, s.Meets start end_ x)
    (hL : ∀ a ∈ L, s.endseq_ a < start) (hR : ∀ b ∈ R, end_ < s.startseq_ b)
    (htop : s.OnTop (L ++ T ++ R) ls start end_) :
    ∃ rest, ls' = m :: rest ∧ rest.Sublist ls ∧ ∀ x ∈ rest, x ∈ L ++ R := by
  have hrest : ∀ x ∈ ls, x ∉ T → x ∈ L ++ R := fun x hx hxT => by
    have := h.nodes.perm.mem_iff.mp hx
    simp only [List.mem_append] at this ⊢
    tauto
  have hnot : ∀ x ∈ L ++ R, ¬ s.Meets start end_ x := by
    rintro x hx ⟨h1, h2⟩
    rcases List.mem_append.mp hx with hx | hx
    · have := hL x hx
      omega
    · have := hR x hx
      omega
  cases fresh with
  | true =>
    refine ⟨ls.filter (· ∉ T), hg.stack, List.filter_sublist, fun x hx => ?_⟩
    obtain ⟨h1, h2⟩ := List.mem_filter.mp hx
    exact hrest x h1 (of_decide_eq_true h2)
  | false =>
    obtain ⟨hmT, hm, hfirst⟩ := hg.first rfl
    have hmls : m ∈ ls := h.nodes.perm.mem_iff.mpr (by simp [hmT])
    have habove := htop m (by simp [hmT]) ⟨hT m hmT, hm⟩ fun a ha hsa => by
      by_cases ham : a = m
      · exact .inl ham
      · have haT : a ∈ T := by
          by_contra haT
          refine hnot a ?_ hsa.1
          simp only [List.mem_append] at ha ⊢
          tauto
        exact .inr ((hfirst a haT ham).resolve_left hsa.2)
    obtain ⟨A, B, rfl⟩ := List.append_of_mem hmls
    have hnd := h.nodes.perm.nodup_iff.mpr h.nodes.nodup
    rw [List.nodup_middle, List.nodup_cons] at hnd
    have hmA : ∀ x ∈ A, x ≠ m := fun x hx he => hnd.1 (he ▸ List.mem_append_left B hx)
    have hmB : ∀ x ∈ B, x ≠ m := fun x hx he => hnd.1 (he ▸ List.mem_append_right A hx)
    rw [List.takeWhile_append_of_pos (by simpa using hmA), List.takeWhile_cons_of_neg (by simp),
      List.append_nil] at habove
    have hA : A.filter (fun x => x = m ∨ x ∉ T) = [] := by
      rw [List.filter_eq_nil_iff]
      intro x hx hc
      exact hnot x (hrest x (by simp [hx]) ((of_decide_eq_true hc).resolve_left (hmA x hx)))
        (habove x hx)
    have hstack := hg.stack
    rw [if_neg Bool.false_ne_true, List.filter_append, hA, List.nil_append,
      List.filter_cons_of_pos (by simp)] at hstack
    refine ⟨_, hstack, ?_, fun x hx => ?_⟩
    · exact List.filter_sublist.trans ((List.sublist_cons_self m B).trans
        (List.sublist_append_right A _))
    · obtain ⟨h1, h2⟩ := List.mem_filter.mp hx
      exact hrest x (by simp [h1]) ((of_decide_eq_true h2).resolve_left (hmB x h1))

theorem Recent.gathers {fresh : Bool} {lost : Option ℕ} (h : Recent s (L ++ T ++ R) ls segs)
    (hg : Gathers s t L T R ls ls' m fresh lost start end_ f) (hle : start ≤ end_)
    (hL : ∀ a ∈ L, s.endseq_ a < start) (hT : ∀ x ∈ T, s.Meets start end_ x)
    (hR : ∀ b ∈ R, end_ < s.startseq_ b) (htop : s.OnTop (L ++ T ++ R) ls start end_) :
    Recent t (L ++ m :: R) ls' (⟨start, end_, f⟩ :: segs) ∧ ls'.head? = some m ∧
      t.LiesIn m ⟨start, end_, f⟩ := by
  obtain ⟨rest, rfl, hsub, hrest⟩ := hg.stack_eq h.view hT hL hR htop
  have hm : t.LiesIn m ⟨start, end_, f⟩ :=
    ⟨(hg.lo _).mpr (.inl le_rfl), (hg.hi _).mpr (.inl le_rfl)⟩
  have hage : t.age (⟨start, end_, f⟩ :: segs) m = 0 := by
    rw [age, List.findIdx_cons, decide_eq_true hm]
    rfl
  have hages : ∀ x ∈ rest, t.age (⟨start, end_, f⟩ :: segs) x = s.age segs x + 1 := fun x hx => by
    have hx' := hrest x hx
    have hsame : (fun g => decide (t.LiesIn x g)) = fun g => decide (s.LiesIn x g) := by
      funext g
      apply decide_eq_decide.mpr
      rw [LiesIn, LiesIn, hg.startseq x hx', hg.endseq x hx']
    have hnot : ¬ s.LiesIn x ⟨start, end_, f⟩ := by
      rintro ⟨h1, h2⟩
      dsimp only at h1 h2
      rcases List.mem_append.mp hx' with hx | hx
      · have := hL x hx
        omega
      · have := hR x hx
        omega
    change List.findIdx (fun g => decide (t.LiesIn x g)) _ =
      List.findIdx (fun g => decide (s.LiesIn x g)) segs + 1
    rw [hsame, List.findIdx_cons, decide_eq_false hnot]
    rfl
  refine ⟨⟨hg.view, List.pairwise_cons.mpr ⟨fun x hx => ?_, ?_⟩⟩, rfl, hm⟩
  · rw [hage, hages x hx]
    omega
  · refine (h.order.sublist hsub).imp_of_mem fun {x y} hx hy hxy => ?_
    rw [hages x hx, hages y hy]
    omega

/-! ### Runs of `add` -/

/-- A segment that is added. -/
def Segment.op (g : Segment) : Op := .add g.start g.end_ g.tiflags 0

/-- The segment goes to the top of the stack, and `add` returns. -/
def Tops (s : ReassemblyQueue) (g : Segment) : Prop :=
  ¬ s.Crashes s.queued g.start g.end_ ∧ ¬ s.Dropped s.queued g.start g.end_ ∧
    s.OnTop s.queued s.stacked g.start g.end_

/-- The step of `add`, with the segments that were added. -/
def addSegment : ReassemblyQueue × List Segment → Segment →
    Option ((ReassemblyQueue × List Segment) × ℕ) :=
  Machine.ghost (fun s g => s.step (Segment.op g)) fun _ segs g => g :: segs

theorem addSegment_eq {g : Segment} {flags : ℕ} (h : s.step g.op = some (t, flags)) :
    addSegment (s, segs) g = some ((t, g :: segs), flags) := by
  simp [addSegment, Machine.ghost, h]

theorem Recent.add (h : Recent s fs ls segs) {g : Segment} (hg : g.start ≤ g.end_) (ht : s.Tops g) :
    ∃ t flags fs' ls' m, s.step g.op = some (t, flags) ∧ Recent t fs' ls' (g :: segs) ∧
      ls'.head? = some m ∧ t.LiesIn m g := by
  obtain ⟨hc, hd, htop⟩ := ht
  rw [h.view.queued_eq] at hc hd htop
  rw [h.view.stacked_eq] at htop
  obtain ⟨t, flags, h1, ⟨h2, -⟩ | ⟨L, T, R, ls', m, fresh, lost, rfl, hL, hT, hR, hga⟩⟩ :=
    h.view.add hg hc g.tiflags 0
  · exact absurd h2 hd
  · obtain ⟨h2, h3, h4⟩ := h.gathers hga hg hL hT hR htop
    exact ⟨t, flags, _, ls', m, h1, h2, h3, h4⟩

/-- What `gensack` writes when the segment `g` was just added: the blocks in the order in which
segments were last added to them, and first the block of `g`, if it is not received in order. -/
def Reports (t : ReassemblyQueue) (segs : List Segment) (g : Segment) (maxsblock : ℕ) : Prop :=
  ∃ blocks : List ℕ, blocks.Perm t.queued ∧
    t.gensack maxsblock =
      some ((blocks.take maxsblock).map fun x => (t.startseq_ x, t.endseq_ x)) ∧
    (blocks.Pairwise fun x y => t.age segs x < t.age segs y) ∧
    (t.rcv_nxt_ < g.end_ → ∃ m, blocks.head? = some m ∧ t.LiesIn m g)

/-- In every run of `add` from an empty queue in which each segment goes to the top of the stack,
every report is in the order of reception. -/
theorem gensack_recent (rcvnxt : ℤ) {gs : List Segment} {g : Segment}
    (hgs : Machine.Admits addSegment (fun p g => g.start ≤ g.end_ ∧ p.1.Tops g)
      (new rcvnxt, []) (gs ++ [g])) (maxsblock : ℕ) :
    ∃ s segs os t flags, Machine.run addSegment (new rcvnxt, []) gs = some ((s, segs), os) ∧
      addSegment (s, segs) g = some ((t, g :: segs), flags) ∧
      Reports t (g :: segs) g maxsblock := by
  obtain ⟨⟨s, segs⟩, os, h1, ⟨fs, ls, h2⟩, h3, h4⟩ := Machine.run_concat
    (I := fun p : ReassemblyQueue × List Segment => ∃ fs ls, Recent p.1 fs ls p.2)
    (fun p g ⟨fs, ls, h⟩ hg => by
      obtain ⟨t, flags, fs', ls', m, h5, h6, -⟩ := h.add hg.1 hg.2
      exact ⟨_, flags, addSegment_eq h5, fs', ls', h6⟩)
    ⟨[], [], new_view rcvnxt, .nil⟩ hgs
  obtain ⟨t, flags, fs', ls', m, h5, h6, h7, h8⟩ := h2.add h3 h4
  refine ⟨s, segs, os, t, flags, h1, addSegment_eq h5, ls', ?_, h6.view.gensack _,
    h6.order, fun _ => ⟨m, h7, h8⟩⟩
  rw [h6.view.queued_eq]
  exact h6.view.nodes.perm

instance (s : ReassemblyQueue) (fs ls : List ℕ) (start end_ : ℤ) :
    Decidable (s.OnTop fs ls start end_) := by
  unfold OnTop
  infer_instance

instance (s : ReassemblyQueue) (g : Segment) : Decidable (s.Tops g) :=
  inferInstanceAs (Decidable (_ ∧ _ ∧ _))

theorem gensack_recent_two : ∃ s segs os t flags,
    Machine.run addSegment (new 0, []) [⟨10, 20, 16⟩, ⟨30, 40, 16⟩] = some ((s, segs), os) ∧
    addSegment (s, segs) ⟨40, 50, 16⟩ = some ((t, ⟨40, 50, 16⟩ :: segs), flags) ∧
    Reports t (⟨40, 50, 16⟩ :: segs) ⟨40, 50, 16⟩ 3 :=
  gensack_recent 0 (by decide) 3

theorem Reports.first {g : Segment} {n : ℕ} (h : Reports t segs g (n + 1))
    (hg : t.rcv_nxt_ < g.end_) :
    ∃ e rest, t.gensack (n + 1) = some (e :: rest) ∧ e.1 ≤ g.start ∧ g.end_ ≤ e.2 := by
  obtain ⟨blocks, -, h1, -, h2⟩ := h
  obtain ⟨m, hm, hin⟩ := h2 hg
  obtain ⟨rest, rfl⟩ := head?_split hm
  exact ⟨_, _, h1, hin⟩

/-- A block that grows stays below the block that was reported before. -/
theorem gensack_stale : ¬ ∀ (rcvnxt : ℤ) (gs : List Segment) (g : Segment),
    (∀ g' ∈ gs ++ [g], g'.start ≤ g'.end_) → ∀ maxsblock, ∃ s segs os t flags,
      Machine.run addSegment (new rcvnxt, []) gs = some ((s, segs), os) ∧
      addSegment (s, segs) g = some ((t, g :: segs), flags) ∧
      Reports t (g :: segs) g maxsblock := by
  intro hall
  obtain ⟨s, segs, os, t, flags, h1, h2, h3⟩ :=
    hall 0 [⟨10, 20, 16⟩, ⟨30, 40, 16⟩] ⟨20, 25, 16⟩ (by decide) 1
  have hstale : ((Machine.run addSegment (new 0, []) [⟨10, 20, 16⟩, ⟨30, 40, 16⟩]).bind fun r =>
      (addSegment r.1 ⟨20, 25, 16⟩).map fun q => (q.1.1.gensack 1, decide (q.1.1.rcv_nxt_ < 25))) =
        some (some [(30, 40)], true) := by decide
  rw [h1, Option.bind_some, h2, Option.map_some, Option.some_inj, Prod.mk.injEq,
    decide_eq_true_eq] at hstale
  obtain ⟨e, rest, h4, h5, -⟩ := h3.first hstale.2
  rw [hstale.1] at h4
  obtain ⟨rfl, -⟩ := List.cons.inj (Option.some.inj h4)
  exact absurd h5 (by decide)

end Ns2.ReassemblyQueue
