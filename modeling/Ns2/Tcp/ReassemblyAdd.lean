import Ns2.Tcp.ReassemblyMerge

/-! The search of `add` for the place of a segment, which kills what is overlapped completely and
then starts again. -/

namespace Ns2.ReassemblyQueue

open Intervals

variable {s t : ReassemblyQueue} {fs ls ls' L T K P Q R A B : List ℕ} {m r : ℕ} {start end_ : ℤ}
  {f : ℕ}

/-! ### Killing what is overlapped -/

theorem kill_step {q : Option ℕ} {fuel tiflags : ℕ} {initcnt : ℤ} {altered : Bool}
    (hq : q ≠ some r) (hlive : s.live r = true)
    (hcut : ¬ (start ≤ s.startseq_ r ∧ end_ ≥ s.endseq_ r)) :
    kill start end_ q (fuel + 1) (some r) s tiflags initcnt altered =
      kill start end_ q fuel (s.fifo.next r) s tiflags initcnt altered := by
  have hexact : ¬ (start = s.startseq_ r ∧ end_ = s.endseq_ r) := fun hh =>
    hcut ⟨hh.1.le, hh.2.ge⟩
  rw [kill, if_neg hq, if_neg (by simp [hlive]), if_neg hexact, if_neg hcut]

theorem kill_stop {q : Option ℕ} {fuel tiflags : ℕ} {initcnt : ℤ} {altered : Bool} :
    kill start end_ q (fuel + 1) q s tiflags initcnt altered =
      some (.rest s tiflags initcnt altered) := by
  cases q with
  | none => rw [kill]
  | some r => rw [kill, if_pos rfl]

/-- The blocks that are left when one is taken off both lists and freed. -/
theorem View.freed (h : View s (L ++ r :: R) ls) {fifo lifo : DList ℕ} {hint : Option ℕ}
    (hn : Nodes { s with
      total_ := s.total_ - (s.endseq_ r - s.startseq_ r)
      hint_ := hint
      fifo := fifo
      lifo := lifo } (L ++ R) (ls.erase r)) :
    View (({ s with
      total_ := s.total_ - (s.endseq_ r - s.startseq_ r)
      hint_ := hint
      fifo := fifo
      lifo := lifo } : ReassemblyQueue).deleteseginfo r) (L ++ R) (ls.erase r) := by
  have hsub : (L ++ R).Sublist (L ++ r :: R) := (List.sublist_cons_self r R).append_left L
  refine ⟨?_, fun a ha => h.proper a (hsub.subset ha), h.apart.sublist hsub, ?_⟩
  · exact hn.drop (fun hm => h.nodes.ne r hm rfl) (h.nodes.live r (by simp)) rfl rfl rfl rfl rfl
  · change s.total_ - (s.endseq_ r - s.startseq_ r) = size s.startseq_ s.endseq_ (L ++ R)
    rw [h.total, size_append, size_cons, size_append]
    omega

theorem View.kill (h : View s (L ++ r :: R) ls) :
    ∃ t, ((({ s with total_ := s.total_ - (s.endseq_ r - s.startseq_ r) } :
        ReassemblyQueue).fremove r).bind (·.sremove r)).map (·.deleteseginfo r) = some t ∧
      View t (L ++ R) (ls.erase r) ∧ t.startseq_ = s.startseq_ ∧ t.endseq_ = s.endseq_ ∧
      t.pflags_ = s.pflags_ ∧ t.rcv_nxt_ = s.rcv_nxt_ := by
  have hs : Nodes { s with total_ := s.total_ - (s.endseq_ r - s.startseq_ r) } (L ++ r :: R) ls :=
    h.nodes.congr rfl rfl rfl rfl rfl
  obtain ⟨fifo, lifo, hint, h1, h2⟩ := hs.unlink'
  rw [h1]
  exact ⟨_, rfl, h.freed h2, rfl, rfl, rfl, rfl⟩

/-- The block that was killed has left its flags to the segment. -/
theorem Gathers.killed {fresh : Bool} {lost : Option ℕ} (hs : View s (L ++ (A ++ r :: B) ++ R) ls)
    (hst : t.startseq_ = s.startseq_) (hen : t.endseq_ = s.endseq_) (hfl : t.pflags_ = s.pflags_)
    (hrcv : t.rcv_nxt_ = s.rcv_nxt_) (hr : s.Overlapped start end_ r)
    (hAB : ∀ x ∈ A ++ B, s.endseq_ x = start → s.startseq_ x < start) {u : ReassemblyQueue}
    (h : Gathers t u L (A ++ B) R (ls.erase r) ls' m fresh lost start end_ (f ||| s.pflags_ r)) :
    Gathers s u L (A ++ r :: B) R ls ls' m fresh lost start end_ f := by
  have hmem : ∀ x, x ∈ A ++ r :: B ↔ x = r ∨ x ∈ A ++ B := fun x => by
    simp only [List.mem_append, List.mem_cons]
    tauto
  have hnr : r ∉ A ++ B := fun hm =>
    Nodes.ne (s := s) (L := L ++ A) (R := B ++ R) (by simpa using hs.nodes) r
      (by
        simp only [List.mem_append] at hm ⊢
        tauto) rfl
  have hover : ∀ x ∈ A ++ B, t.Overlapped start end_ x ↔ s.Overlapped start end_ x := by
    intro x hx
    unfold Overlapped
    rw [hst, hen]
    by_cases he : s.endseq_ x = start
    · have hlt := hAB x hx he
      constructor <;> exact fun ho => absurd ho.1 hlt.not_ge
    · simp [he]
  have hnd := hs.nodes.perm.nodup_iff.mpr hs.nodes.nodup
  obtain ⟨g1, g2, g3, g4, g5, g6, g7, g8, g9, g10, g11⟩ := h
  rw [hst] at g2 g5
  rw [hen] at g3 g6
  rw [hfl] at g4 g7
  rw [hst, hen] at g8 g10
  refine ⟨g1, g2, g3, g4, ?_, ?_, ?_, ?_, ?_, ?_, ?_⟩
  · intro v
    rw [g5 v]
    constructor
    · rintro (hv | ⟨a, ha, hv⟩)
      · exact .inl hv
      · exact .inr ⟨a, (hmem a).mpr (.inr ha), hv⟩
    · rintro (hv | ⟨a, ha, hv⟩)
      · exact .inl hv
      · rcases (hmem a).mp ha with rfl | ha
        · exact .inl (hr.1.trans hv)
        · exact .inr ⟨a, ha, hv⟩
  · intro v
    rw [g6 v]
    constructor
    · rintro (hv | ⟨a, ha, hv⟩)
      · exact .inl hv
      · exact .inr ⟨a, (hmem a).mpr (.inr ha), hv⟩
    · rintro (hv | ⟨a, ha, hv⟩)
      · exact .inl hv
      · rcases (hmem a).mp ha with rfl | ha
        · exact .inl (hv.trans hr.2.1)
        · exact .inr ⟨a, ha, hv⟩
  · intro i
    rw [g7 i, Nat.testBit_or, Bool.or_eq_true]
    constructor
    · rintro ((hi | hi) | ⟨a, ha, hi⟩)
      · exact .inl hi
      · refine .inr ⟨r, (hmem r).mpr (.inl rfl), fun hl => hnr (g8 r hl).1, hi⟩
      · exact .inr ⟨a, (hmem a).mpr (.inr ha), hi⟩
    · rintro (hi | ⟨a, ha, hi⟩)
      · exact .inl (.inl hi)
      · rcases (hmem a).mp ha with rfl | ha
        · exact .inl (.inr hi.2)
        · exact .inr ⟨a, ha, hi⟩
  · intro b hb
    obtain ⟨h1, h2, a, h3, h4, h5⟩ := g8 b hb
    exact ⟨(hmem b).mpr (.inr h1), mt (hover b h1).mpr h2, a, (hmem a).mpr (.inr h3),
      mt (hover a h3).mpr h4, h5⟩
  · rw [g9, hnd.erase_eq_filter, List.filter_filter, List.filter_filter]
    cases fresh with
    | true =>
      rw [if_pos rfl, if_pos rfl]
      refine congrArg (m :: ·) (List.filter_congr fun x _ => ?_)
      rw [Bool.eq_iff_iff]
      simp only [Bool.and_eq_true, decide_eq_true_eq, bne_iff_ne, hmem]
      tauto
    | false =>
      rw [if_neg Bool.false_ne_true, if_neg Bool.false_ne_true]
      have hmr : m ≠ r := fun he => hnr (he ▸ (g10 rfl).1)
      refine List.filter_congr fun x _ => ?_
      rw [Bool.eq_iff_iff]
      simp only [Bool.and_eq_true, decide_eq_true_eq, bne_iff_ne, hmem]
      constructor
      · rintro ⟨rfl | hx, hxr⟩ <;> tauto
      · rintro (rfl | hx) <;> tauto
  · intro hfr
    obtain ⟨h1, h2, h3⟩ := g10 hfr
    refine ⟨(hmem m).mpr (.inr h1), mt (hover m h1).mpr h2, fun a ha ham => ?_⟩
    rcases (hmem a).mp ha with rfl | ha
    · exact .inl hr
    · exact (h3 a ha ham).imp_left (hover a ha).mp
  · rw [hst, hen, hrcv] at g11
    exact g11

/-- The walk takes out what is overlapped completely, and nothing else; what is added afterwards
is added to the blocks that there were before. -/
theorem View.kill_spec (h : View s (L ++ (A ++ K ++ B) ++ R) ls) {fuel : ℕ} (hle : start ≤ end_)
    (hexact : ∀ m ∈ K, ¬ (start = s.startseq_ m ∧ end_ = s.endseq_ m))
    (hK : ∀ m ∈ K, start ≤ s.endseq_ m ∧ s.startseq_ m < end_)
    (hA : ∀ x ∈ A, s.endseq_ x = start → s.startseq_ x < start)
    (hz : ∀ m ∈ K, s.endseq_ m = start → s.fifo.tail ≠ some m) (hfuel : K.length < fuel)
    (tiflags : ℕ) (initcnt : ℤ) (altered : Bool) :
    ∃ t K' ls' f c alt, ReassemblyQueue.kill start end_ (B ++ R).head? fuel (K ++ (B ++ R)).head? s
        tiflags initcnt altered = some (.rest t f c alt) ∧ View t (L ++ (A ++ K' ++ B) ++ R) ls' ∧
      t.startseq_ = s.startseq_ ∧ t.endseq_ = s.endseq_ ∧
      (∀ m ∈ K', m ∈ K ∧ ¬ (start ≤ s.startseq_ m ∧ end_ ≥ s.endseq_ m)) ∧
      (∀ m ∈ K, m ∉ K' → s.Overlapped start end_ m) ∧
      (alt = false → altered = false ∧ K' = K ∧ t = s ∧ ls' = ls ∧ f = tiflags) ∧
      (alt = true → altered = true ∨ ∃ m ∈ K, s.Overlapped start end_ m) ∧
      ∀ u ls'' n fresh lost, Gathers t u L (A ++ K' ++ B) R ls' ls'' n fresh lost start end_ f →
        Gathers s u L (A ++ K ++ B) R ls ls'' n fresh lost start end_ tiflags := by
  induction K generalizing s A ls fuel tiflags initcnt altered with
  | nil =>
    obtain ⟨fuel, rfl⟩ : ∃ k, fuel = k + 1 := ⟨fuel - 1, by simp at hfuel; omega⟩
    exact ⟨s, [], ls, tiflags, initcnt, altered, kill_stop, h, rfl, rfl, by simp, by simp, by simp,
      .inl, fun _ _ _ _ _ hg => hg⟩
  | cons r K ih =>
    obtain ⟨fuel, rfl⟩ : ∃ k, fuel = k + 1 := ⟨fuel - 1, by simp at hfuel; omega⟩
    have h' : View s ((L ++ A) ++ r :: (K ++ (B ++ R))) ls := by simpa using h
    have hlive := h'.nodes.live r (by simp)
    have hnext : s.fifo.next r = (K ++ (B ++ R)).head? := h'.nodes.fifo.next
    have hq : (B ++ R).head? ≠ some r := fun hq =>
      h'.nodes.ne r (by simp [List.mem_of_mem_head? hq]) rfl
    have hexact' : ∀ m ∈ K, ¬ (start = s.startseq_ m ∧ end_ = s.endseq_ m) := fun m hm =>
      hexact m (List.mem_cons_of_mem r hm)
    have hK' : ∀ m ∈ K, start ≤ s.endseq_ m ∧ s.startseq_ m < end_ := fun m hm =>
      hK m (List.mem_cons_of_mem r hm)
    have hafter : ∀ x ∈ K ++ (B ++ R), start < s.endseq_ x := fun x hx => by
      have h1 : s.endseq_ r < s.startseq_ x :=
        View.lt (L := L ++ A ++ [r]) (by simpa using h') (by simp) hx
      have h2 := h'.proper x (List.mem_append_right _ (List.mem_cons_of_mem r hx))
      have h3 := (hK r (by simp)).1
      omega
    by_cases hr : start ≤ s.startseq_ r ∧ end_ ≥ s.endseq_ r
    · -- the block is killed
      have hover : s.Overlapped start end_ r :=
        ⟨hr.1, hr.2, (hK r (by simp)).2, hexact r (by simp), hz r (by simp)⟩
      obtain ⟨t, h1, h2, h3, h4, h5, h6⟩ := h'.kill
      obtain ⟨u, hu, hut⟩ := Option.map_eq_some_iff.mp h1
      obtain ⟨t', K', ls', f, c, alt, g1, g2, g3, g4, g5, g6, g7, g8, g9⟩ :=
        @ih t (ls.erase r) A (by simpa using h2) fuel (by rw [h3, h4]; exact hexact')
          (by rw [h3, h4]; exact hK') (by rw [h3, h4]; exact hA)
          (fun m hm he => absurd (h4 ▸ he) (hafter m (by simp [hm])).ne')
          (by simpa using hfuel) (tiflags ||| s.pflags_ r) (initcnt + s.cnt_ r) true
      refine ⟨t', K', ls', f, c, alt, ?_, g2, g3.trans h3, g4.trans h4, ?_, ?_,
        fun ha => absurd (g7 ha).1 (by simp), fun _ => .inr ⟨r, by simp, hover⟩, ?_⟩
      · rw [List.cons_append, List.head?_cons, ReassemblyQueue.kill, if_neg hq,
          if_neg (by simp [hlive]), if_neg (hexact r (by simp)), if_pos hr]
        dsimp only
        rw [hu, Option.bind_some, hnext, hut]
        exact g1
      · intro m hm
        have := g5 m hm
        rw [h3, h4] at this
        exact ⟨List.mem_cons_of_mem r this.1, this.2⟩
      · intro m hm hm'
        rcases List.mem_cons.mp hm with rfl | hm
        · exact hover
        · have := g6 m hm hm'
          unfold Overlapped at this ⊢
          rw [h3, h4] at this
          exact ⟨this.1, this.2.1, this.2.2.1, this.2.2.2.1, hz m (by simp [hm])⟩
      · intro w ls'' n fresh lost hg
        have hAKB : A ++ r :: K ++ B = A ++ r :: (K ++ B) := by simp
        rw [hAKB] at h ⊢
        refine Gathers.killed h h3 h4 h5 h6 hover ?_ (by simpa using g9 w ls'' n fresh lost hg)
        intro x hx he
        rcases List.mem_append.mp hx with hx | hx
        · exact hA x hx he
        · refine absurd he (hafter x ?_).ne'
          simp only [List.mem_append] at hx ⊢
          tauto
    · -- the walk goes on
      obtain ⟨t, K', ls', f, c, alt, g1, g2, g3, g4, g5, g6, g7, g8, g9⟩ :=
        @ih s ls (A ++ [r]) (by simpa using h) fuel hexact' hK'
          (fun x hx he => by
            rcases List.mem_append.mp hx with hx | hx
            · exact hA x hx he
            · obtain rfl := List.mem_singleton.mp hx
              by_contra hge
              exact hr ⟨not_lt.mp hge, he.trans_le hle⟩)
          (fun m hm => hz m (List.mem_cons_of_mem r hm)) (by simpa using hfuel) tiflags initcnt
          altered
      refine ⟨t, r :: K', ls', f, c, alt, ?_, by simpa using g2, g3, g4, ?_, ?_, ?_, ?_, ?_⟩
      · rw [List.cons_append, List.head?_cons, kill_step hq hlive hr, hnext]
        exact g1
      · intro m hm
        rcases List.mem_cons.mp hm with rfl | hm
        · exact ⟨by simp, hr⟩
        · exact (g5 m hm).imp_left (List.mem_cons_of_mem r)
      · intro m hm hm'
        rw [List.mem_cons, not_or] at hm'
        exact g6 m ((List.mem_cons.mp hm).resolve_left hm'.1) hm'.2
      · intro ha
        obtain ⟨h1, h2, h3⟩ := g7 ha
        exact ⟨h1, by rw [h2], h3⟩
      · intro ha
        exact (g8 ha).imp_right fun ⟨m, hm, hc⟩ => ⟨m, List.mem_cons_of_mem r hm, hc⟩
      · intro w ls'' n fresh lost hg
        have := g9 w ls'' n fresh lost (by simpa using hg)
        simpa using this

/-- The segment is a block already, and only this block's flags change. -/
theorem View.kill_exact (h : View s (L ++ [m] ++ R) ls) (hst : s.startseq_ m = start)
    (hen : s.endseq_ m = end_) (fuel : ℕ) (initcnt : ℤ) (altered : Bool) :
    ∃ t flags, ReassemblyQueue.kill start end_ R.head? (fuel + 1) (some m) s f initcnt altered =
        some (.exact t flags) ∧ Gathers s t L [m] R ls ls m false none start end_ f := by
  have hnodes : Nodes s (L ++ m :: R) ls := by simpa using h.nodes
  have hq : R.head? ≠ some m := fun hq => hnodes.ne m (by simp [List.mem_of_mem_head? hq]) rfl
  have hlive := hnodes.live m (by simp)
  refine ⟨{ s with pflags_ := Function.update s.pflags_ m (s.pflags_ m ||| f) }, s.pflags_ m ||| f,
    ?_, ⟨⟨hnodes.congr rfl rfl rfl rfl rfl, by simpa using h.proper, by simpa using h.apart,
        by simpa using h.total⟩, fun _ _ => rfl, fun _ _ => rfl,
      fun x hx => Function.update_of_ne (hnodes.ne x hx) _ _, fun v => ?_, fun v => ?_, fun i => ?_,
      by simp, by simp, ?_, .inl ⟨rfl, rfl, rfl, rfl⟩⟩⟩
  · rw [ReassemblyQueue.kill, if_neg hq, if_neg (by simp [hlive]), if_pos ⟨hst.symm, hen.symm⟩]
  · simp [hst]
  · simp [hen]
  · simp [or_comm]
  · exact fun _ => ⟨by simp, fun ho => ho.2.2.2.1 ⟨hst.symm, hen.symm⟩, by simp⟩

/-! ### The search -/

theorem View.scan_next (h : View s (L ++ R) ls) (end_ : ℤ)
    (hL : ∀ a ∈ L, s.startseq_ a < end_) (hR : ∀ b ∈ R, end_ ≤ s.startseq_ b) :
    DList.scan s.live s.fifo.next (fun a => s.startseq_ a ≥ end_) (s.brk + 1) s.fifo.head =
      some R.head? := by
  have hlen := h.nodes.length_le
  rw [List.length_append] at hlen
  rw [h.nodes.fifo.head]
  apply @DList.Fwd.scan ℕ s.fifo s.live _ [] L R
  · exact h.nodes.fifo.fwd
  · exact h.nodes.live
  · intro a ha
    simpa using hL a ha
  · intro b hb
    simpa using hR b (List.mem_of_mem_head? hb)
  · omega

theorem View.scan_prev (h : View s (L ++ R) ls) (start : ℤ)
    (hL : ∀ a ∈ L, s.endseq_ a ≤ start) (hR : ∀ b ∈ R, start < s.endseq_ b) :
    DList.scan s.live s.fifo.prev (fun a => s.endseq_ a ≤ start) (s.brk + 1) s.fifo.tail =
      some L.getLast? := by
  have hlen := h.nodes.length_le
  rw [List.length_append] at hlen
  have hrev := h.nodes.fifo.reverse
  rw [List.reverse_append] at hrev
  have hhead : s.fifo.tail = (R.reverse ++ L.reverse).head? := hrev.head
  rw [hhead, ← List.head?_reverse]
  apply @DList.Fwd.scan ℕ s.fifo.reverse s.live _ [] R.reverse L.reverse
  · exact hrev.fwd
  · intro a ha
    apply h.nodes.live
    rw [← List.reverse_append, List.mem_reverse] at ha
    exact ha
  · intro b hb
    simpa using hR b (List.mem_reverse.mp hb)
  · intro a ha
    simpa using hL a (List.mem_reverse.mp (List.mem_of_mem_head? ha))
  · rw [List.length_reverse]
    omega

/-- The last block before a segment is not overlapped, and is walked over. -/
theorem View.kill_start (h : View s (L ++ R) ls) (start end_ : ℤ)
    (hL : ∀ a ∈ L, s.endseq_ a < start) {q : Option ℕ} (hq : ∀ a ∈ L, q ≠ some a)
    (tiflags : ℕ) (initcnt : ℤ) : ∃ fuel, R.length < fuel ∧
      ReassemblyQueue.kill start end_ q (s.brk + 1) (L.getLast? <|> s.fifo.head) s tiflags initcnt
        false = ReassemblyQueue.kill start end_ q fuel R.head? s tiflags initcnt false := by
  have hlen := h.nodes.length_le
  rw [List.length_append] at hlen
  cases hl : L.getLast? with
  | none =>
    obtain rfl := List.getLast?_eq_none_iff.mp hl
    refine ⟨s.brk + 1, by omega, ?_⟩
    rw [h.nodes.fifo.head]
    rfl
  | some l =>
    obtain ⟨L, rfl⟩ := getLast?_split hl
    have h' : View s (L ++ l :: R) ls := by simpa using h
    have hpos := h'.proper l (by simp)
    have hlt := hL l (by simp)
    simp only [List.length_append, List.length_singleton] at hlen
    refine ⟨s.brk, by omega, ?_⟩
    change ReassemblyQueue.kill start end_ q (s.brk + 1) (some l) s tiflags initcnt false = _
    rw [kill_step (hq l (by simp)) (h'.nodes.live l (by simp)) (by omega), h'.nodes.fifo.next]

/-- Of the blocks that a segment meets, only the last one may start where the segment ends. -/
theorem View.split_right (h : View s (L ++ T ++ R) ls) (hT : ∀ x ∈ T, s.startseq_ x ≤ end_) :
    ∃ K Q, T = K ++ Q ∧ (∀ x ∈ K, s.startseq_ x < end_) ∧
      (Q = [] ∨ ∃ q, Q = [q] ∧ s.startseq_ q = end_) := by
  induction T using List.reverseRecOn with
  | nil => exact ⟨[], [], rfl, by simp, .inl rfl⟩
  | append_singleton T y _ =>
    have hbefore : ∀ x ∈ T, s.startseq_ x < end_ := fun x hx => by
      have h1 : s.endseq_ x < s.startseq_ y :=
        View.lt (L := L ++ T) (R := y :: R) (by simpa using h) (by simp [hx]) (by simp)
      have h2 := h.proper x (by simp [hx])
      have h3 := hT y (by simp)
      omega
    rcases (hT y (by simp)).lt_or_eq with hlt | heq
    · refine ⟨T ++ [y], [], by simp, fun x hx => ?_, .inl rfl⟩
      rcases List.mem_append.mp hx with hx | hx
      · exact hbefore x hx
      · exact (List.mem_singleton.mp hx).symm ▸ hlt
    · exact ⟨T, [y], rfl, hbefore, .inr ⟨y, rfl, heq⟩⟩

/-- Only the first one may end where the segment starts. -/
theorem View.split_left (h : View s (L ++ T ++ R) ls) (hT : ∀ x ∈ T, start ≤ s.endseq_ x) :
    ∃ P M, T = P ++ M ∧ (P = [] ∨ ∃ p, P = [p] ∧ s.endseq_ p = start) ∧
      ∀ x ∈ M, start < s.endseq_ x := by
  cases T with
  | nil => exact ⟨[], [], rfl, .inl rfl, by simp⟩
  | cons y T =>
    have hafter : ∀ x ∈ T, start < s.endseq_ x := fun x hx => by
      have h1 : s.endseq_ y < s.startseq_ x :=
        View.lt (L := L ++ [y]) (R := T ++ R) (by simpa using h) (by simp) (by simp [hx])
      have h2 := h.proper x (by simp [hx])
      have h3 := hT y (by simp)
      omega
    rcases (hT y (by simp)).lt_or_eq with hlt | heq
    · exact ⟨[], y :: T, rfl, .inl rfl, List.forall_mem_cons.mpr ⟨hlt, hafter⟩⟩
    · exact ⟨[y], T, rfl, .inr ⟨y, rfl, heq.symm⟩, hafter⟩

/-- The blocks before, at and behind a segment. -/
theorem View.split (h : View s fs ls) (start end_ : ℤ) : ∃ L T R, fs = L ++ T ++ R ∧
    (∀ a ∈ L, s.endseq_ a < start) ∧ (∀ x ∈ T, s.Meets start end_ x) ∧
      ∀ b ∈ R, end_ < s.startseq_ b := by
  obtain ⟨-, hproper, hapart, -⟩ := h
  induction fs with
  | nil => exact ⟨[], [], [], rfl, by simp, by simp, by simp⟩
  | cons a fs ih =>
    rw [List.pairwise_cons] at hapart
    obtain ⟨L, T, R, rfl, hL, hT, hR⟩ := ih (fun x hx => hproper x (List.mem_cons_of_mem a hx))
      hapart.2
    have ha := hproper a (by simp)
    by_cases hs : s.endseq_ a < start
    · exact ⟨a :: L, T, R, rfl, List.forall_mem_cons.mpr ⟨hs, hL⟩, hT, hR⟩
    · have hnil : L = [] := List.eq_nil_iff_forall_not_mem.mpr fun b hb => by
        have h1 := hapart.1 b (by simp [hb])
        have h2 := hproper b (by simp [hb])
        have h3 := hL b hb
        omega
      subst hnil
      by_cases he : s.startseq_ a ≤ end_
      · exact ⟨[], a :: T, R, rfl, by simp,
          List.forall_mem_cons.mpr ⟨⟨he, not_lt.mp hs⟩, hT⟩, hR⟩
      · refine ⟨[], [], a :: T ++ R, rfl, by simp, by simp, List.forall_mem_cons.mpr
          ⟨not_le.mp he, fun b hb => ?_⟩⟩
        have h1 := hapart.1 b hb
        omega

theorem View.lt_or_lt (h : View s fs ls) {a b : ℕ} (ha : a ∈ fs) (hb : b ∈ fs) (hne : a ≠ b) :
    s.endseq_ a < s.startseq_ b ∨ s.endseq_ b < s.startseq_ a := by
  obtain ⟨A, B, rfl⟩ := List.append_of_mem ha
  rcases List.mem_append.mp hb with hb | hb
  · exact .inr (h.lt hb (by simp))
  · have hb' := (List.mem_cons.mp hb).resolve_left hne.symm
    exact .inl (View.lt (L := A ++ [a]) (R := B) (by simpa using h) (by simp) hb')

theorem eq_singleton {l : List ℕ} (hnd : l.Nodup) (hm : m ∈ l) (hl : ∀ x ∈ l, x = m) : l = [m] := by
  cases l with
  | nil => cases hm
  | cons a l =>
    obtain rfl := hl a (by simp)
    have hnil : l = [] := List.eq_nil_iff_forall_not_mem.mpr fun x hx =>
      (List.nodup_cons.mp hnd).1 (hl x (List.mem_cons_of_mem a hx) ▸ hx)
    rw [hnil]

/-- The segment starts where the last block ends, or behind it. -/
theorem View.behind {tail : ℕ} (h : View s (L ++ T ++ R) ls) (hF : L ++ T ++ R = fs ++ [tail])
    (hle : start ≤ end_) (hL : ∀ a ∈ L, s.endseq_ a < start) (hT : ∀ x ∈ T, s.Meets start end_ x)
    (hR : ∀ b ∈ R, end_ < s.startseq_ b) (htail : s.endseq_ tail ≤ start) (rqflags : ℕ)
    (initcnt : ℤ) : ∃ t flags ls' m fresh lost,
      s.endfast (some tail) none start end_ f rqflags initcnt (start = s.endseq_ tail) =
        some (t, flags) ∧ Gathers s t L T R ls ls' m fresh lost start end_ f := by
  have hlast : s.fifo.tail = some tail := by
    rw [h.nodes.fifo.tail, hF, List.getLast?_concat]
  have hpos := h.proper tail (by simp [hF])
  obtain rfl : R = [] := by
    rcases List.eq_nil_or_concat R with hR0 | ⟨R, b, rfl⟩
    · exact hR0
    · obtain rfl : b = tail := by simpa using congrArg List.getLast? hF
      have := hR b (by simp)
      omega
  rw [List.append_nil] at hF
  have hP : T = [] ∧ start = start ∧ (∀ a ∈ L, s.endseq_ a < start) ∨
      ∃ p, T = [p] ∧ s.endseq_ p = start ∧ start ≤ start ∧ (start = start ∨ s.startseq_ p ≤ start) ∧
        ¬ s.Overlapped start end_ p := by
    rcases List.eq_nil_or_concat T with rfl | ⟨T, b, rfl⟩
    · exact .inl ⟨rfl, rfl, hL⟩
    · obtain rfl : b = tail := by simpa using congrArg List.getLast? hF
      have hb := (hT b (by simp)).2
      have hnil : T = [] := List.eq_nil_iff_forall_not_mem.mpr fun x hx => by
        have h2 : s.endseq_ x < s.startseq_ b :=
          View.lt (L := L ++ T) (R := [b]) (by simpa using h) (by simp [hx]) (by simp)
        have h3 := (hT x (by simp [hx])).2
        omega
      subst hnil
      exact .inr ⟨b, rfl, by omega, le_rfl, .inl rfl, fun ho => ho.2.2.2.2 (by omega) hlast⟩
  have hneed : decide (start = s.endseq_ tail) = true ↔ T ++ [] ≠ [] := by
    rw [decide_eq_true_eq, List.append_nil]
    rcases hP with ⟨rfl, -, -⟩ | ⟨p, rfl, hp, -⟩
    · have htL : tail ∈ L := by
        rw [List.append_nil] at hF
        simp [hF]
      simpa using (hL tail htL).ne'
    · obtain rfl : p = tail := by simpa using congrArg List.getLast? hF
      simp [hp]
  have hfast := @View.endfast s ls L T [] [] (by simpa using h) start end_ f s.pflags_ s.cnt_
    start end_ (fun _ _ => rfl) (fun _ _ => rfl) hle hP (.inl ⟨rfl, rfl, by simp⟩) rqflags initcnt _
    hneed
  rw [List.append_nil T, hF, List.getLast?_concat] at hfast
  exact hfast

/-- The segment ends where the first block starts, or before it. -/
theorem View.before {head : ℕ} (h : View s (L ++ T ++ R) ls) (hH : L ++ T ++ R = head :: fs)
    (hle : start ≤ end_) (hL : ∀ a ∈ L, s.endseq_ a < start) (hT : ∀ x ∈ T, s.Meets start end_ x)
    (hR : ∀ b ∈ R, end_ < s.startseq_ b) (hhead : end_ ≤ s.startseq_ head) (rqflags : ℕ)
    (initcnt : ℤ) : ∃ t flags ls' m fresh lost,
      s.endfast none (some head) start end_ f rqflags initcnt (end_ = s.startseq_ head) =
        some (t, flags) ∧ Gathers s t L T R ls ls' m fresh lost start end_ f := by
  have hpos := h.proper head (by simp [hH])
  obtain rfl : L = [] := by
    cases L with
    | nil => rfl
    | cons b L =>
      obtain rfl : b = head := by simpa using congrArg List.head? hH
      have := hL b (by simp)
      omega
  rw [List.nil_append] at h hH
  have hQ : T = [] ∧ end_ = end_ ∧ (∀ b ∈ R, end_ < s.startseq_ b) ∨
      ∃ q, T = [q] ∧ s.startseq_ q = end_ ∧ end_ ≤ end_ ∧ (end_ = end_ ∨ end_ ≤ s.endseq_ q) ∧
        ¬ s.Overlapped start end_ q := by
    cases T with
    | nil => exact .inl ⟨rfl, rfl, hR⟩
    | cons b T =>
      obtain rfl : b = head := by simpa using congrArg List.head? hH
      have hb := (hT b (by simp)).1
      have hnil : T = [] := List.eq_nil_iff_forall_not_mem.mpr fun x hx => by
        have h3 : s.endseq_ b < s.startseq_ x :=
          View.lt (L := [b]) (R := T ++ R) (by simpa using h) (by simp) (by simp [hx])
        have h4 := (hT x (by simp [hx])).1
        omega
      subst hnil
      refine .inr ⟨b, rfl, by omega, le_rfl, .inl rfl, fun ho => ?_⟩
      have := ho.2.2.1
      omega
  have hneed : decide (end_ = s.startseq_ head) = true ↔ [] ++ T ≠ [] := by
    rw [decide_eq_true_eq, List.nil_append]
    rcases hQ with ⟨rfl, -, -⟩ | ⟨q, rfl, hq, -⟩
    · have hhR : head ∈ R := by
        rw [List.nil_append] at hH
        simp [hH]
      simpa using (hR head hhR).ne
    · obtain rfl : q = head := by simpa using congrArg List.head? hH
      simp [hq]
  have hfast := @View.endfast s ls [] [] T R (by simpa using h) start end_ f s.pflags_ s.cnt_
    start end_ (fun _ _ => rfl) (fun _ _ => rfl) hle (.inl ⟨rfl, rfl, by simp⟩) hQ rqflags initcnt _
    hneed
  rwa [List.nil_append, hH] at hfast

/-- A block that is the segment is the only one that the segment meets. -/
theorem View.exact (h : View s (L ++ T ++ R) ls) (hT : ∀ x ∈ T, s.Meets start end_ x) (hm : m ∈ T)
    (hst : s.startseq_ m = start) (hen : s.endseq_ m = end_) : T = [m] := by
  have hsub : T.Sublist (L ++ T ++ R) :=
    (List.sublist_append_right L T).trans (List.sublist_append_left _ R)
  apply eq_singleton (h.nodes.nodup.sublist hsub) hm
  intro x hx
  by_contra hne
  obtain ⟨h1, h2⟩ := hT x hx
  rcases h.lt_or_lt (hsub.subset hx) (hsub.subset hm) hne with h3 | h3
  · omega
  · omega

section middle

variable {M : List ℕ} (h : View s (L ++ (P ++ M ++ Q) ++ R) ls)
  (hL : ∀ a ∈ L, s.endseq_ a < start) (hP : P = [] ∨ ∃ p, P = [p] ∧ s.endseq_ p = start)
  (hQ : Q = [] ∨ ∃ q, Q = [q] ∧ s.startseq_ q = end_) (hR : ∀ b ∈ R, end_ < s.startseq_ b)

include hL hP in
theorem end_le_of_left {a : ℕ} (ha : a ∈ L ++ P) : s.endseq_ a ≤ start := by
  rcases List.mem_append.mp ha with ha | ha
  · exact (hL a ha).le
  · rcases hP with rfl | ⟨p, rfl, hp⟩
    · cases ha
    · exact (List.mem_singleton.mp ha ▸ hp).le

include hQ hR in
theorem le_start_of_right {b : ℕ} (hb : b ∈ Q ++ R) : end_ ≤ s.startseq_ b := by
  rcases List.mem_append.mp hb with hb | hb
  · rcases hQ with rfl | ⟨q, rfl, hq⟩
    · cases hb
    · exact (List.mem_singleton.mp hb ▸ hq).ge
  · exact (hR b hb).le

include h hL hP hQ hR in
/-- The two searches find the neighbours of the blocks that are overlapped, and the walk between
them starts at the block that ends where the segment starts. -/
theorem View.searches (hle : start ≤ end_) (hlt : start < end_ ∨ Q = [])
    (hK : ∀ x ∈ P ++ M, s.startseq_ x < end_) (hM : ∀ x ∈ M, start < s.endseq_ x) (tiflags : ℕ)
    (initcnt : ℤ) : ∃ fuel,
      (P ++ M).length < fuel ∧
      DList.scan s.live s.fifo.next (fun a => s.startseq_ a ≥ end_) (s.brk + 1) s.fifo.head =
        some (Q ++ R).head? ∧
      DList.scan s.live s.fifo.prev (fun a => s.endseq_ a ≤ start) (s.brk + 1) s.fifo.tail =
        some (L ++ P).getLast? ∧
      ReassemblyQueue.kill start end_ (Q ++ R).head? (s.brk + 1) ((L ++ P).getLast? <|> s.fifo.head)
          s tiflags initcnt false =
        ReassemblyQueue.kill start end_ (Q ++ R).head? fuel ((P ++ M) ++ (Q ++ R)).head? s tiflags
          initcnt false := by
  have h1 : View s ((L ++ P) ++ (M ++ (Q ++ R))) ls := by simpa using h
  have h2 : View s ((L ++ (P ++ M)) ++ (Q ++ R)) ls := by simpa using h
  have hLend : ∀ a ∈ L, s.startseq_ a < end_ := fun a ha => by
    have h3 := h.proper a (by simp [ha])
    have h4 := hL a ha
    omega
  have hscan := h2.scan_next end_
    (fun a ha => (List.mem_append.mp ha).elim (hLend a) (hK a))
    fun b hb => le_start_of_right hQ hR hb
  have hscan' := h1.scan_prev start (fun a ha => end_le_of_left hL hP ha) (fun b hb => by
    have h3 := h1.proper b (List.mem_append_right _ hb)
    rcases List.mem_append.mp hb with hb' | hb'
    · exact hM b hb'
    · rcases hlt with hlt | rfl
      · have h4 := le_start_of_right hQ hR hb'
        omega
      · have h4 := hR b hb'
        omega)
  rcases hP with rfl | ⟨p, rfl, hp⟩
  · have hq : ∀ a ∈ L, (Q ++ R).head? ≠ some a := fun a ha hq => by
      have h3 := le_start_of_right hQ hR (List.mem_of_mem_head? hq)
      have h4 := hLend a ha
      omega
    obtain ⟨fuel, h3, h4⟩ := View.kill_start (L := L) (R := M ++ (Q ++ R)) (by simpa using h)
      start end_ hL hq tiflags initcnt
    rw [List.length_append] at h3
    exact ⟨fuel, by simpa using (Nat.le_add_right _ _).trans_lt h3, hscan, hscan',
      by simpa using h4⟩
  · have hlen := h.nodes.length_le
    refine ⟨s.brk + 1, ?_, hscan, hscan', by simp⟩
    simp only [List.length_append] at hlen ⊢
    omega

end middle

/-- The search ends, at the latest when it is made again with nothing left to kill. -/
theorem View.again2 (h : View s (L ++ T ++ R) ls) (hne : L ++ T ++ R ≠ []) (hlt : start < end_)
    (hL : ∀ a ∈ L, s.endseq_ a < start) (hT : ∀ x ∈ T, s.Meets start end_ x)
    (hR : ∀ b ∈ R, end_ < s.startseq_ b) {fuel : ℕ}
    (hfuel : 1 < fuel ∨ fuel = 1 ∧ ∀ x ∈ T, ¬ s.Overlapped start end_ x)
    (hc : ¬ ((∀ x ∈ L ++ T ++ R, s.Overlapped start end_ x) ∧ ∃ x ∈ T, s.endseq_ x = start))
    (rqflags : ℕ) (initcnt : ℤ) : ∃ t flags ls' m fresh lost,
      ReassemblyQueue.again2 start end_ rqflags fuel s f initcnt = some (t, flags) ∧
        Gathers s t L T R ls ls' m fresh lost start end_ f := by
  induction fuel generalizing s T ls f initcnt with
  | zero => omega
  | succ fuel ih =>
    obtain ⟨F, tail, hF⟩ : ∃ F tail, L ++ T ++ R = F ++ [tail] :=
      ⟨_, _, (List.dropLast_append_getLast hne).symm⟩
    obtain ⟨head, H, hH⟩ := List.exists_cons_of_ne_nil hne
    have htail : s.deref s.fifo.tail = some tail := (hF ▸ h.nodes).deref_tail
    have hhead : s.deref s.fifo.head = some head := (hH ▸ h.nodes).deref_head
    have htail' : s.fifo.tail = some tail := by
      rw [h.nodes.fifo.tail, hF, List.getLast?_concat]
    rw [ReassemblyQueue.again2, htail, Option.bind_some]
    by_cases h1 : start ≥ s.endseq_ tail
    · rw [if_pos h1]
      exact h.behind hF hlt.le hL hT hR h1 rqflags initcnt
    rw [if_neg h1, hhead, Option.bind_some]
    rw [ge_iff_le, not_le] at h1
    by_cases h2 : end_ ≤ s.startseq_ head
    · rw [if_pos h2]
      exact h.before hH hlt.le hL hT hR h2 rqflags initcnt
    rw [if_neg h2]
    rw [not_le] at h2
    obtain ⟨K, Q, rfl, hK, hQ⟩ := h.split_right fun x hx => (hT x hx).1
    obtain ⟨P, M, rfl, hP, hM⟩ := View.split_left (L := L) (T := K) (R := Q ++ R) (by simpa using h)
      fun x hx => (hT x (by simp [hx])).2
    have hM' : ∀ b ∈ Q ++ R, end_ ≤ s.startseq_ b := fun b hb => le_start_of_right hQ hR hb
    obtain ⟨fuel', hf', hscan, hscan', hkill⟩ :=
      h.searches hL hP hQ hR hlt.le (.inl hlt) hK hM f initcnt
    rw [hscan, Option.bind_some, hscan', Option.bind_some, hkill]
    by_cases hexact : ∃ m ∈ P ++ M, s.startseq_ m = start ∧ s.endseq_ m = end_
    · -- the segment is a block
      obtain ⟨m, hm, hst, hen⟩ := hexact
      have hone := h.exact hT (List.mem_append_left Q hm) hst hen
      rcases List.append_eq_singleton_iff.mp hone with ⟨hnil, -⟩ | ⟨hPM, rfl⟩
      · rw [hnil] at hm
        cases hm
      · rw [hPM] at hf' h ⊢
        rw [List.append_nil] at h ⊢
        obtain ⟨fuel', rfl⟩ : ∃ k, fuel' = k + 1 := ⟨fuel' - 1, by simp at hf'; omega⟩
        obtain ⟨t, flags, h3, h4⟩ :=
          @View.kill_exact s ls L R m start end_ f h hst hen fuel' initcnt false
        refine ⟨t, flags, ls, m, false, none, ?_, h4⟩
        rw [List.nil_append, List.singleton_append, List.head?_cons, h3]
        rfl
    simp only [not_exists, not_and] at hexact
    obtain ⟨t, K', ls', f', c, alt, g1, g2, g3, g4, g5, g6, g7, g8, g9⟩ :=
      @View.kill_spec s ls L (P ++ M) R [] Q start end_ (by simpa using h) fuel' hlt.le
        (fun m hm hc => hexact m hm hc.1.symm hc.2.symm)
        (fun m hm => ⟨(hT m (List.mem_append_left Q hm)).2, hK m hm⟩) (by simp)
        (fun m hm he ht => by
          rw [htail', Option.some_inj] at ht
          rw [ht] at h1
          omega) hf' f initcnt false
    rw [g1, Option.bind_some]
    dsimp only
    rw [List.nil_append] at g2 g9
    have hhead' := g2.nodes.fifo.head
    by_cases hempty : L ++ (K' ++ Q) ++ R = []
    · -- everything was killed
      obtain ⟨h3, rfl⟩ := List.append_eq_nil_iff.mp hempty
      obtain ⟨rfl, h4⟩ := List.append_eq_nil_iff.mp h3
      obtain ⟨rfl, rfl⟩ := List.append_eq_nil_iff.mp h4
      rw [if_pos (by simpa using hhead')]
      obtain rfl : P = [] := by
        rcases hP with rfl | ⟨p, rfl, hp⟩
        · rfl
        · refine absurd ⟨fun x hx => g6 x (by simpa using hx) (by simp), p, by simp, hp⟩ hc
      obtain ⟨u, flags, ls'', n, fresh, lost, h5, h6⟩ := @View.endfast t ls' [] [] [] [] g2 start
        end_ f' t.pflags_ t.cnt_ start end_ (fun _ _ => rfl) (fun _ _ => rfl) hlt.le
        (.inl ⟨rfl, rfl, by simp⟩) (.inl ⟨rfl, rfl, by simp⟩) rqflags c false (by simp)
      exact ⟨u, flags, ls'', n, fresh, lost, h5, g9 u ls'' n fresh lost h6⟩
    · rw [if_neg (by rw [hhead']; simpa using hempty)]
      have hover : ∀ m ∈ K', ¬ t.Overlapped start end_ m := fun m hm ho => by
        unfold Overlapped at ho
        rw [g3, g4] at ho
        exact (g5 m hm).2 ⟨ho.1, ho.2.1⟩
      have hoverQ : ∀ m ∈ Q, ¬ t.Overlapped start end_ m := fun m hm ho => by
        have h3 := hM' m (by simp [hm])
        have h4 := ho.2.2.1
        rw [g3] at h4
        omega
      cases alt with
      | true =>
        rw [if_pos rfl]
        have hfuel' : 1 < fuel + 1 := by
          rcases hfuel with hlt | ⟨-, hno⟩
          · exact hlt
          · rcases g8 rfl with hc | ⟨m, hm, hc⟩
            · cases hc
            · exact absurd hc (hno m (List.mem_append_left Q hm))
        have hT' : ∀ x ∈ K' ++ Q, ¬ t.Overlapped start end_ x := fun x hx =>
          (List.mem_append.mp hx).elim (hover x) (hoverQ x)
        obtain ⟨u, flags, ls'', n, fresh, lost, h5, h6⟩ := @ih t ls' (K' ++ Q) f' g2 hempty
          (by rw [g4]; exact hL)
          (fun x hx => by
            have h3 := hT x (by
              rcases List.mem_append.mp hx with hx | hx
              · exact List.mem_append_left Q (g5 x hx).1
              · exact List.mem_append_right _ hx)
            rwa [Meets, g3, g4])
          (by rw [g3]; exact hR)
          (by
            rcases Nat.lt_or_ge 1 fuel with hlt | hge
            · exact .inl hlt
            · exact .inr ⟨by omega, hT'⟩)
          (fun hc => by
            obtain ⟨x, hx, -⟩ := hc.2
            exact hT' x hx (hc.1 x (List.mem_append_left R (List.mem_append_right L hx)))) c
        exact ⟨u, flags, ls'', n, fresh, lost, h5, g9 u ls'' n fresh lost h6⟩
      | false =>
        obtain ⟨-, rfl, rfl, rfl, rfl⟩ := g7 rfl
        rw [if_neg Bool.false_ne_true]
        apply g2.merge hL
        · exact hP.imp_right fun ⟨p, hp, hpe⟩ => ⟨p, hp, hpe, hover p (by simp [hp])⟩
        · exact fun m hm => ⟨hM m hm, hK m (by simp [hm]), (g5 m (by simp [hm])).2⟩
        · exact hQ
        · exact hR
        · by_cases hM0 : M = []
          · subst hM0
            refine .inr ⟨hlt, fun h3 => ?_, fun h3 => ?_⟩
            · obtain ⟨rfl, rfl⟩ := List.append_eq_nil_iff.mp h3
              have := hM' head (by
                rw [show Q ++ R = head :: H by simpa using hH]
                simp)
              omega
            · obtain ⟨rfl, rfl⟩ := List.append_eq_nil_iff.mp h3
              have := end_le_of_left hL hP (a := tail) (by
                rw [show L ++ P = F ++ [tail] by simpa using hF]
                simp)
              omega
          · exact .inl hM0

/-! ### Segments without a byte -/

/-- The segment has no byte, and lies in no block, nor before or behind all of them. -/
def Dropped (s : ReassemblyQueue) (fs : List ℕ) (start end_ : ℤ) : Prop :=
  start = end_ ∧ (∃ x ∈ fs, s.startseq_ x < start) ∧ (∃ x ∈ fs, start < s.endseq_ x) ∧
    ∀ x ∈ fs, ¬ (s.startseq_ x < start ∧ start < s.endseq_ x)

/-- All that the segment meets is killed, and with it the block before the segment. -/
def Crashes (s : ReassemblyQueue) (fs : List ℕ) (start end_ : ℤ) : Prop :=
  (∀ x ∈ fs, s.Overlapped start end_ x) ∧ ∃ x ∈ fs, s.endseq_ x = start

instance (s : ReassemblyQueue) (fs : List ℕ) (start end_ : ℤ) :
    Decidable (s.Dropped fs start end_) := inferInstanceAs (Decidable (_ ∧ _ ∧ _ ∧ _))

instance (s : ReassemblyQueue) (fs : List ℕ) (start end_ : ℤ) :
    Decidable (s.Crashes fs start end_) := inferInstanceAs (Decidable (_ ∧ _))

/-- The segment has no byte, and lies in a block. -/
theorem View.again2_inside (h : View s (L ++ [m] ++ R) ls) (hL : ∀ a ∈ L, s.endseq_ a < start)
    (hm : s.startseq_ m < start) (hm' : start < s.endseq_ m) (hR : ∀ b ∈ R, start < s.startseq_ b)
    (fuel rqflags : ℕ) (initcnt : ℤ) : ∃ t flags ls' n fresh lost,
      ReassemblyQueue.again2 start start rqflags (fuel + 1) s f initcnt = some (t, flags) ∧
        Gathers s t L [m] R ls ls' n fresh lost start start f := by
  obtain ⟨F, tail, hF⟩ : ∃ F tail, L ++ [m] ++ R = F ++ [tail] :=
    ⟨_, _, (List.dropLast_append_getLast (by simp)).symm⟩
  obtain ⟨head, H, hH⟩ := List.exists_cons_of_ne_nil (show L ++ [m] ++ R ≠ [] by simp)
  have htail : s.deref s.fifo.tail = some tail := (hF ▸ h.nodes).deref_tail
  have hhead : s.deref s.fifo.head = some head := (hH ▸ h.nodes).deref_head
  have htail' : start < s.endseq_ tail := by
    have hmem : m ∈ F ++ [tail] := by simp [← hF]
    rcases List.mem_append.mp hmem with hmF | hmt
    · have h1 : s.endseq_ m < s.startseq_ tail := View.lt (hF ▸ h) hmF (by simp)
      have h2 := h.proper tail (by simp [hF])
      omega
    · rwa [← List.mem_singleton.mp hmt]
  have hhead' : s.startseq_ head < start := by
    have hmem : m ∈ head :: H := by simp [← hH]
    rcases List.mem_cons.mp hmem with rfl | hmH
    · exact hm
    · have h1 : s.endseq_ head < s.startseq_ m := View.lt (L := [head]) (hH ▸ h) (by simp) hmH
      have h2 := h.proper head (by simp [hH])
      omega
  have hnodes : Nodes s (L ++ m :: R) ls := by simpa using h.nodes
  have hq : R.head? ≠ some m := fun hq => hnodes.ne m (by simp [List.mem_of_mem_head? hq]) rfl
  obtain ⟨fuel', hf', hscan, hscan', hkill⟩ := View.searches (M := [m]) (P := []) (Q := [])
    (by simpa using h) hL (.inl rfl) (.inl rfl) hR le_rfl (.inr rfl) (by simpa using hm)
    (by simpa using hm') f initcnt
  obtain ⟨fuel', rfl⟩ : ∃ k, fuel' = k + 2 := ⟨fuel' - 2, by simp at hf'; omega⟩
  have hwalk : ReassemblyQueue.kill start start R.head? (fuel' + 2) (some m) s f initcnt false =
      some (.rest s f initcnt false) := by
    rw [kill_step hq (hnodes.live m (by simp)) (fun hc => hc.1.not_gt hm), hnodes.fifo.next,
      kill_stop]
  have hcut : s.Cut start start m := ⟨hm', hm, fun hc => hc.1.not_gt hm⟩
  obtain ⟨t, flags, ls', n, fresh, lost, h1, h2⟩ := View.merge (P := []) (Q := []) (M := [m])
    (f := f) (by simpa using h) hL (.inl rfl) (by simpa using hcut) (.inl rfl) hR (.inl (by simp))
    rqflags initcnt
  rw [List.append_nil, List.nil_append] at h1 hkill
  rw [List.nil_append] at hscan
  rw [List.append_nil] at hscan'
  refine ⟨t, flags, ls', n, fresh, lost, ?_, h2⟩
  rw [ReassemblyQueue.again2, htail, Option.bind_some, if_neg htail'.not_ge, hhead,
    Option.bind_some, if_neg hhead'.not_ge, hscan, Option.bind_some, hscan', Option.bind_some,
    hkill]
  rw [List.nil_append, List.singleton_append, List.head?_cons, hwalk, Option.bind_some]
  dsimp only
  rw [if_neg (by rw [hnodes.fifo.head]; simp), if_neg Bool.false_ne_true]
  exact h1

/-- The segment has no byte, and is dropped. -/
theorem View.again2_dropped (h : View s (A ++ K ++ B) ls) (hA : A ≠ []) (hB : B ≠ [])
    (hA' : ∀ a ∈ A, s.startseq_ a < start ∧ s.endseq_ a ≤ start)
    (hK : K = [] ∨ ∃ x, K = [x] ∧ s.startseq_ x = start ∧ s.endseq_ x = start)
    (hB' : ∀ b ∈ B, start ≤ s.startseq_ b ∧ start < s.endseq_ b) (fuel rqflags : ℕ) (initcnt : ℤ) :
    ∃ a, (A ++ K ++ B).head? = some a ∧
      ReassemblyQueue.again2 start start rqflags (fuel + 1) s f initcnt =
        some (s.advance (s.startseq_ a) (s.endseq_ a), f) := by
  obtain ⟨A', a, rfl⟩ : ∃ A' a, A = A' ++ [a] := ⟨_, _, (List.dropLast_append_getLast hA).symm⟩
  obtain ⟨b, B, rfl⟩ := List.exists_cons_of_ne_nil hB
  have ha := hA' a (by simp)
  have hb := hB' b (by simp)
  obtain ⟨F, tail, hF⟩ : ∃ F tail, b :: B = F ++ [tail] :=
    ⟨_, _, (List.dropLast_append_getLast hB).symm⟩
  obtain ⟨head, H, hH⟩ := List.exists_cons_of_ne_nil hA
  have htail : s.deref s.fifo.tail = some tail :=
    @Nodes.deref_tail s ls (A' ++ [a] ++ K ++ F) tail (by
      rw [List.append_assoc _ F, ← hF]
      exact h.nodes)
  have hhead : s.deref s.fifo.head = some head :=
    @Nodes.deref_head s ls (H ++ K ++ b :: B) head (by
      rw [← List.cons_append, ← List.cons_append, ← hH]
      exact h.nodes)
  have htail' : start < s.endseq_ tail := (hB' tail (by simp [hF])).2
  have hhead' : s.startseq_ head < start := (hA' head (by simp [hH])).1
  have hKst : ∀ x ∈ K, s.startseq_ x = start ∧ s.endseq_ x = start := by
    rcases hK with rfl | ⟨x, rfl, hx⟩
    · simp
    · simpa using hx
  have hscan := View.scan_next (L := A' ++ [a]) (R := K ++ b :: B) (by simpa using h) start
    (fun x hx => (hA' x hx).1) (fun x hx => by
      rcases List.mem_append.mp hx with hx | hx
      · exact (hKst x hx).1.ge
      · exact (hB' x hx).1)
  have hscan' := View.scan_prev (L := A' ++ [a] ++ K) (R := b :: B) h start
    (fun x hx => by
      rcases List.mem_append.mp hx with hx | hx
      · exact (hA' x hx).2
      · exact (hKst x hx).2.le) (fun x hx => (hB' x hx).2)
  obtain ⟨k, hk, hret⟩ := h.nodes.return_head f
  refine ⟨k, hk, ?_⟩
  -- the walk finds nothing between the two neighbours
  have hwalk : ReassemblyQueue.kill start start (K ++ b :: B).head? (s.brk + 1)
      ((A' ++ [a] ++ K).getLast? <|> s.fifo.head) s f initcnt false =
        some (.rest s f initcnt false) := by
    rcases hK with rfl | ⟨x, rfl, -⟩
    · have hnodes : Nodes s (A' ++ a :: b :: B) ls := by simpa using h.nodes
      have hlive := hnodes.live a (by simp)
      have hbrk := hnodes.links.bound a hlive
      have hne : b ≠ a := hnodes.ne b (by simp)
      obtain ⟨k, hk⟩ : ∃ k, s.brk = k + 1 := ⟨s.brk - 1, by omega⟩
      rw [List.append_nil, List.getLast?_concat, hk]
      change ReassemblyQueue.kill start start (some b) (k + 2) (some a) s f initcnt false = _
      rw [kill_step (by simpa using hne) hlive (fun hc => hc.1.not_gt ha.1), hnodes.fifo.next]
      exact kill_stop
    · rw [List.getLast?_concat]
      exact kill_stop
  have hleft : s.leftBlock (A' ++ [a] ++ K).getLast? start = some none := by
    rw [h.nodes.leftBlock, if_neg]
    rw [not_or, not_lt]
    exact ⟨by simp, hb.1⟩
  have hright : s.rightBlock (K ++ b :: B).head? start = some none := by
    have hnodes : Nodes s (A' ++ [a] ++ (K ++ b :: B)) ls := by simpa using h.nodes
    rw [hnodes.rightBlock, if_neg]
    rw [not_or, gt_iff_lt, not_lt]
    exact ⟨by simp, ha.2⟩
  rw [ReassemblyQueue.again2, htail, Option.bind_some, if_neg htail'.not_ge, hhead,
    Option.bind_some, if_neg hhead'.not_ge, hscan, Option.bind_some, hscan', Option.bind_some,
    hwalk, Option.bind_some]
  dsimp only
  rw [if_neg (by rw [h.nodes.fifo.head]; simp), if_neg Bool.false_ne_true, ReassemblyQueue.merge,
    hleft, Option.bind_some]
  dsimp only
  rw [merge', hright, Option.bind_some]
  dsimp only
  rw [if_pos le_rfl]
  exact hret

/-- A segment that has no byte meets at most one block. -/
theorem View.meets_one (h : View s (L ++ T ++ R) ls) (hT : ∀ x ∈ T, s.Meets start start x) :
    T = [] ∨ ∃ x, T = [x] ∧ s.startseq_ x ≤ start ∧ start ≤ s.endseq_ x := by
  cases T with
  | nil => exact .inl rfl
  | cons x T =>
    have hx := hT x (by simp)
    have hnil : T = [] := List.eq_nil_iff_forall_not_mem.mpr fun y hy => by
      have h1 : s.endseq_ x < s.startseq_ y :=
        View.lt (L := L ++ [x]) (R := T ++ R) (by simpa using h) (by simp) (by simp [hy])
      have h2 := (hT y (by simp [hy])).1
      have h3 := hx.2
      omega
    rw [hnil]
    exact .inr ⟨x, rfl, hx⟩

/-- The blocks before, at and behind a number that lies inside of none of them. -/
theorem View.split_point (h : View s (L ++ T ++ R) ls) (hL : ∀ a ∈ L, s.endseq_ a < start)
    (hT : ∀ x ∈ T, s.Meets start start x) (hR : ∀ b ∈ R, start < s.startseq_ b)
    (hin : ∀ x ∈ T, ¬ (s.startseq_ x < start ∧ start < s.endseq_ x)) :
    ∃ A K B, L ++ T ++ R = A ++ K ++ B ∧
      (∀ a ∈ A, s.startseq_ a < start ∧ s.endseq_ a ≤ start) ∧
      (K = [] ∨ ∃ x, K = [x] ∧ s.startseq_ x = start ∧ s.endseq_ x = start) ∧
      ∀ b ∈ B, start ≤ s.startseq_ b ∧ start < s.endseq_ b := by
  have hL' : ∀ a ∈ L, s.startseq_ a < start ∧ s.endseq_ a ≤ start := fun a ha =>
    ⟨(h.proper a (by simp [ha])).trans_lt (hL a ha), (hL a ha).le⟩
  have hR' : ∀ b ∈ R, start ≤ s.startseq_ b ∧ start < s.endseq_ b := fun b hb =>
    ⟨(hR b hb).le, (hR b hb).trans_le (h.proper b (by simp [hb]))⟩
  rcases h.meets_one hT with rfl | ⟨x, rfl, hx1, hx2⟩
  · exact ⟨L, [], R, by simp, hL', .inl rfl, hR'⟩
  · have hx := hin x (by simp)
    rcases hx1.lt_or_eq with hlt | heq
    · refine ⟨L ++ [x], [], R, by simp, fun a ha => ?_, .inl rfl, hR'⟩
      rcases List.mem_append.mp ha with ha | ha
      · exact hL' a ha
      · rw [List.mem_singleton.mp ha]
        exact ⟨hlt, not_lt.mp fun hgt => hx ⟨hlt, hgt⟩⟩
    · rcases hx2.lt_or_eq with hlt' | heq'
      · exact ⟨L, [], x :: R, by simp, hL', .inl rfl,
          List.forall_mem_cons.mpr ⟨⟨heq.ge, hlt'⟩, hR'⟩⟩
      · exact ⟨L, [x], R, rfl, hL', .inr ⟨x, rfl, heq, heq'.symm⟩, hR'⟩

theorem View.again2_empty (h : View s (L ++ T ++ R) ls) (hne : L ++ T ++ R ≠ [])
    (hL : ∀ a ∈ L, s.endseq_ a < start) (hT : ∀ x ∈ T, s.Meets start start x)
    (hR : ∀ b ∈ R, start < s.startseq_ b) (fuel rqflags : ℕ) (initcnt : ℤ) : ∃ t flags,
      ReassemblyQueue.again2 start start rqflags (fuel + 1) s f initcnt = some (t, flags) ∧
        (Dropped s (L ++ T ++ R) start start ∧ (∃ a, (L ++ T ++ R).head? = some a ∧
            t = s.advance (s.startseq_ a) (s.endseq_ a)) ∨
          ∃ ls' m fresh lost, Gathers s t L T R ls ls' m fresh lost start start f) := by
  obtain ⟨F, tail, hF⟩ : ∃ F tail, L ++ T ++ R = F ++ [tail] :=
    ⟨_, _, (List.dropLast_append_getLast hne).symm⟩
  obtain ⟨head, H, hH⟩ := List.exists_cons_of_ne_nil hne
  have htail : s.deref s.fifo.tail = some tail := (hF ▸ h.nodes).deref_tail
  have hhead : s.deref s.fifo.head = some head := (hH ▸ h.nodes).deref_head
  by_cases h1 : start ≥ s.endseq_ tail
  · obtain ⟨t, flags, ls', m, fresh, lost, h2, h3⟩ :=
      h.behind (f := f) hF le_rfl hL hT hR h1 rqflags initcnt
    refine ⟨t, flags, ?_, .inr ⟨ls', m, fresh, lost, h3⟩⟩
    rw [ReassemblyQueue.again2, htail, Option.bind_some, if_pos h1, h2]
  by_cases h2 : start ≤ s.startseq_ head
  · obtain ⟨t, flags, ls', m, fresh, lost, h3, h4⟩ :=
      h.before (f := f) hH le_rfl hL hT hR h2 rqflags initcnt
    refine ⟨t, flags, ?_, .inr ⟨ls', m, fresh, lost, h4⟩⟩
    rw [ReassemblyQueue.again2, htail, Option.bind_some, if_neg h1, hhead, Option.bind_some,
      if_pos h2, h3]
  rw [ge_iff_le, not_le] at h1
  rw [not_le] at h2
  by_cases hin : ∃ m ∈ T, s.startseq_ m < start ∧ start < s.endseq_ m
  · obtain ⟨m, hmT, hm, hm'⟩ := hin
    obtain rfl : T = [m] := by
      rcases h.meets_one hT with rfl | ⟨x, rfl, -⟩
      · cases hmT
      · rw [List.mem_singleton.mp hmT]
    obtain ⟨t, flags, ls', n, fresh, lost, h3, h4⟩ :=
      h.again2_inside (f := f) hL hm hm' hR fuel rqflags initcnt
    exact ⟨t, flags, h3, .inr ⟨ls', n, fresh, lost, h4⟩⟩
  · have hin' : ∀ x ∈ T, ¬ (s.startseq_ x < start ∧ start < s.endseq_ x) := fun x hx hc =>
      hin ⟨x, hx, hc⟩
    have hdrop : Dropped s (L ++ T ++ R) start start := by
      refine ⟨rfl, ⟨head, by simp [hH], h2⟩, ⟨tail, by simp [hF], h1⟩, fun x hx hc => ?_⟩
      rcases List.mem_append.mp hx with hx | hx
      · rcases List.mem_append.mp hx with hx | hx
        · exact (hL x hx).not_gt hc.2
        · exact hin' x hx hc
      · exact (hR x hx).not_gt hc.1
    obtain ⟨A, K, B, hsplit, hA, hK, hB⟩ := h.split_point hL hT hR hin'
    rw [hsplit] at h hF hH hdrop ⊢
    have hKst : ∀ x ∈ K, s.startseq_ x = start ∧ s.endseq_ x = start := by
      rcases hK with rfl | ⟨x, rfl, hx⟩
      · simp
      · simpa using hx
    have hA0 : A ≠ [] := by
      rintro rfl
      have hmem : head ∈ K ++ B := by
        rw [show K ++ B = head :: H by simpa using hH]
        simp
      rcases List.mem_append.mp hmem with hm | hm
      · exact h2.ne (hKst head hm).1
      · exact h2.not_ge (hB head hm).1
    have hB0 : B ≠ [] := by
      rintro rfl
      have hmem : tail ∈ A ++ K := by
        rw [show A ++ K = F ++ [tail] by simpa using hF]
        simp
      rcases List.mem_append.mp hmem with hm | hm
      · exact h1.not_ge (hA tail hm).2
      · exact h1.ne (hKst tail hm).2.symm
    obtain ⟨a, h3, h4⟩ := h.again2_dropped (f := f) hA0 hB0 hA hK hB fuel rqflags initcnt
    exact ⟨_, f, h4, .inl ⟨hdrop, a, h3, rfl⟩⟩

/-! ### Adding a segment -/

/-- What `add` does, if it does not crash: all that the segment meets becomes one block, unless the
segment has no byte and is dropped. -/
theorem View.add (h : View s fs ls) (hle : start ≤ end_) (hc : ¬ s.Crashes fs start end_) (f : ℕ)
    (rqflags : ℕ) : ∃ t flags, s.add start end_ f rqflags = some (t, flags) ∧
      (Dropped s fs start end_ ∧ (∃ a, fs.head? = some a ∧
          t = s.advance (s.startseq_ a) (s.endseq_ a)) ∨
        ∃ L T R ls' m fresh lost, fs = L ++ T ++ R ∧ (∀ a ∈ L, s.endseq_ a < start) ∧
          (∀ x ∈ T, s.Meets start end_ x) ∧ (∀ b ∈ R, end_ < s.startseq_ b) ∧
          Gathers s t L T R ls ls' m fresh lost start end_ f) := by
  obtain ⟨L, T, R, rfl, hL, hT, hR⟩ := h.split start end_
  rw [ReassemblyQueue.add, if_neg hle.not_gt]
  by_cases hne : L ++ T ++ R = []
  · obtain ⟨h1, rfl⟩ := List.append_eq_nil_iff.mp hne
    obtain ⟨rfl, rfl⟩ := List.append_eq_nil_iff.mp h1
    have hl : ls = [] := h.nodes.perm.eq_nil
    have htot : s.total_ = 0 := h.total
    have hs : ({ s with total_ := 0 } : ReassemblyQueue) = s := by rw [← htot]
    have hhead : s.fifo.head = none := h.nodes.fifo.head
    rw [if_pos hhead, if_neg (by simp [h.nodes.links.lifo.head, hl]), hs]
    obtain ⟨t, flags, ls', n, fresh, lost, h2, h3⟩ := @View.endfast s ls [] [] [] [] h start end_ f
      s.pflags_ s.cnt_ start end_ (fun _ _ => rfl) (fun _ _ => rfl) hle (.inl ⟨rfl, rfl, by simp⟩)
      (.inl ⟨rfl, rfl, by simp⟩) rqflags 1 false (by simp)
    exact ⟨t, flags, h2, .inr ⟨[], [], [], ls', n, fresh, lost, rfl, hL, hT, hR, h3⟩⟩
  · have hfuel : 1 < s.brk + 2 := by omega
    rw [if_neg (by rw [h.nodes.fifo.head]; simpa using hne)]
    rcases hle.lt_or_eq with hlt | rfl
    · obtain ⟨t, flags, ls', m, fresh, lost, h2, h3⟩ := h.again2 hne hlt hL hT hR
        (.inl hfuel) (fun hx => hc ⟨hx.1, hx.2.imp fun x hx => ⟨by simp [hx.1], hx.2⟩⟩)
        rqflags 1
      exact ⟨t, flags, h2, .inr ⟨L, T, R, ls', m, fresh, lost, rfl, hL, hT, hR, h3⟩⟩
    · obtain ⟨t, flags, h2, h3⟩ := h.again2_empty (f := f) hne hL hT hR (s.brk + 1) rqflags 1
      refine ⟨t, flags, h2, h3.imp_right fun ⟨ls', m, fresh, lost, h4⟩ => ?_⟩
      exact ⟨L, T, R, ls', m, fresh, lost, rfl, hL, hT, hR, h4⟩

end Ns2.ReassemblyQueue
