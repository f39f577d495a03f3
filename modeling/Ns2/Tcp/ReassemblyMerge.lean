import Ns2.Lib.Intervals
import Ns2.Tcp.ReassemblyLinks

/-! The segment that is added and all the blocks that it meets become one block. -/

namespace Ns2.ReassemblyQueue

open Intervals

/-- The blocks in the order of the queue and of the stack, with a hole between any two; `total_`
is their length. -/
structure View (s : ReassemblyQueue) (fs ls : List ℕ) : Prop where
  nodes : Nodes s fs ls
  proper : ∀ a ∈ fs, s.startseq_ a ≤ s.endseq_ a
  apart : fs.Pairwise fun a b => s.endseq_ a < s.startseq_ b
  total : s.total_ = size s.startseq_ s.endseq_ fs

/-- The segment overlaps or touches the block. -/
def Meets (s : ReassemblyQueue) (start end_ : ℤ) (x : ℕ) : Prop :=
  s.startseq_ x ≤ end_ ∧ start ≤ s.endseq_ x

/-- The segment overlaps the block completely, and the block is on the walk that kills it. -/
def Overlapped (s : ReassemblyQueue) (start end_ : ℤ) (x : ℕ) : Prop :=
  start ≤ s.startseq_ x ∧ s.endseq_ x ≤ end_ ∧ s.startseq_ x < end_ ∧
    ¬ (start = s.startseq_ x ∧ end_ = s.endseq_ x) ∧ (s.endseq_ x = start → s.fifo.tail ≠ some x)

instance (s : ReassemblyQueue) (start end_ : ℤ) (x : ℕ) : Decidable (s.Meets start end_ x) :=
  inferInstanceAs (Decidable (_ ∧ _))

instance (s : ReassemblyQueue) (start end_ : ℤ) (x : ℕ) : Decidable (s.Overlapped start end_ x) :=
  inferInstanceAs (Decidable (_ ∧ _ ∧ _ ∧ _ ∧ _))

/-- The segment and the blocks `T` have become the block `m`, which is one of them if it is not
`fresh`. One of the blocks, `lost`, has left no flags. -/
structure Gathers (s t : ReassemblyQueue) (L T R ls ls' : List ℕ) (m : ℕ) (fresh : Bool)
    (lost : Option ℕ) (start end_ : ℤ) (f : ℕ) : Prop where
  view : View t (L ++ m :: R) ls'
  startseq : ∀ x ∈ L ++ R, t.startseq_ x = s.startseq_ x
  endseq : ∀ x ∈ L ++ R, t.endseq_ x = s.endseq_ x
  pflags : ∀ x ∈ L ++ R, t.pflags_ x = s.pflags_ x
  lo : ∀ v, t.startseq_ m ≤ v ↔ start ≤ v ∨ ∃ a ∈ T, s.startseq_ a ≤ v
  hi : ∀ v, v ≤ t.endseq_ m ↔ v ≤ end_ ∨ ∃ a ∈ T, v ≤ s.endseq_ a
  flags : ∀ i, (t.pflags_ m).testBit i = true ↔
    f.testBit i = true ∨ ∃ a ∈ T, lost ≠ some a ∧ (s.pflags_ a).testBit i = true
  second : ∀ b, lost = some b → b ∈ T ∧ ¬ s.Overlapped start end_ b ∧
    ∃ a ∈ T, ¬ s.Overlapped start end_ a ∧ s.endseq_ a < s.startseq_ b
  stack : ls' = if fresh then m :: ls.filter (· ∉ T) else ls.filter fun x => x = m ∨ x ∉ T
  first : fresh = false → m ∈ T ∧ ¬ s.Overlapped start end_ m ∧
    ∀ a ∈ T, a ≠ m → s.Overlapped start end_ a ∨ s.endseq_ m < s.startseq_ a
  rcv_nxt : (fresh = false ∧ t.startseq_ m = s.startseq_ m ∧ t.endseq_ m = s.endseq_ m ∧
      t.rcv_nxt_ = s.rcv_nxt_) ∨
    ∃ h, (h = m ∨ (L ++ m :: R).head? = some h) ∧
      t.rcv_nxt_ = adv s.rcv_nxt_ (t.startseq_ h) (t.endseq_ h)

variable {s t : ReassemblyQueue} {fs ls ls' L T K P Q R : List ℕ} {m : ℕ} {start end_ : ℤ} {f : ℕ}

theorem View.lt (h : View s (L ++ R) ls) {a b : ℕ} (ha : a ∈ L) (hb : b ∈ R) :
    s.endseq_ a < s.startseq_ b :=
  (List.pairwise_append.mp h.apart).2.2 a ha b hb

theorem View.absorb (h : View s (L ++ T ++ R) ls) (ht : Nodes t (L ++ m :: R) ls')
    (hst : ∀ x ∈ L ++ R, t.startseq_ x = s.startseq_ x)
    (hen : ∀ x ∈ L ++ R, t.endseq_ x = s.endseq_ x) (hm : t.startseq_ m ≤ t.endseq_ m)
    (hL : ∀ x ∈ L, s.endseq_ x < t.startseq_ m) (hR : ∀ x ∈ R, t.endseq_ m < s.startseq_ x)
    (htot : t.total_ = s.total_ - size s.startseq_ s.endseq_ T + (t.endseq_ m - t.startseq_ m)) :
    View t (L ++ m :: R) ls' := by
  have hsub : (L ++ R).Sublist (L ++ T ++ R) := (List.sublist_append_left L T).append_right R
  have hLR := (h.apart.sublist hsub).imp_of_mem (S := fun a b => t.endseq_ a < t.startseq_ b)
    fun ha hb hab => by rwa [hen _ ha, hst _ hb]
  obtain ⟨h1, h2, h3⟩ := List.pairwise_append.mp hLR
  refine ⟨ht, ?_, List.pairwise_append.mpr ⟨h1, List.pairwise_cons.mpr ⟨?_, h2⟩, ?_⟩, ?_⟩
  · intro a ha
    rcases List.mem_cons.mp (List.perm_middle.mem_iff.mp ha) with rfl | ha
    · exact hm
    · rw [hst a ha, hen a ha]
      exact h.proper a (hsub.subset ha)
  · intro x hx
    rw [hst x (by simp [hx])]
    exact hR x hx
  · intro x hx y hy
    rcases List.mem_cons.mp hy with rfl | hy
    · rw [hen x (by simp [hx])]
      exact hL x hx
    · exact h3 x hx y hy
  · rw [htot, h.total, size_append, size_append, size_append, size_cons,
      size_congr (fun x hx => hst x (List.mem_append_left R hx)) fun x hx =>
        hen x (List.mem_append_left R hx),
      size_congr (fun x hx => hst x (List.mem_append_right L hx)) fun x hx =>
        hen x (List.mem_append_right L hx)]
    omega

/-! ### A new block -/

/-- The part of the segment that is left is linked as a new block, and coalesced with the blocks
`P` and `Q` that it touches. -/
theorem View.endfast (h : View s (L ++ (P ++ Q) ++ R) ls) (start end_ : ℤ) (f : ℕ) {g : ℕ → ℕ}
    {c : ℕ → ℤ} {start' end' : ℤ} (hg : ∀ x ∈ L ++ R, g x = s.pflags_ x)
    (hg' : ∀ x ∈ P ++ Q, g x ||| f = s.pflags_ x ||| f) (hle : start' ≤ end')
    (hP : P = [] ∧ start' = start ∧ (∀ a ∈ L, s.endseq_ a < start) ∨
      ∃ p, P = [p] ∧ s.endseq_ p = start' ∧ start ≤ start' ∧
        (start' = start ∨ s.startseq_ p ≤ start) ∧ ¬ s.Overlapped start end_ p)
    (hQ : Q = [] ∧ end' = end_ ∧ (∀ b ∈ R, end_ < s.startseq_ b) ∨
      ∃ q, Q = [q] ∧ s.startseq_ q = end' ∧ end' ≤ end_ ∧
        (end' = end_ ∨ end_ ≤ s.endseq_ q) ∧ ¬ s.Overlapped start end_ q)
    (rqflags : ℕ) (initcnt : ℤ) {needmerge : Bool} (hneed : needmerge = true ↔ P ++ Q ≠ []) :
    ∃ t flags ls' m fresh lost, ({ s with pflags_ := g, cnt_ := c } : ReassemblyQueue).endfast
        (L ++ P).getLast? (Q ++ R).head? start' end' f rqflags initcnt needmerge = some (t, flags) ∧
      Gathers s t L (P ++ Q) R ls ls' m fresh lost start end_ f := by
  have hnodes : Nodes { s with pflags_ := g, cnt_ := c } ((L ++ P) ++ (Q ++ R)) ls := by
    have h1 : Nodes { s with pflags_ := g, cnt_ := c } (L ++ (P ++ Q) ++ R) ls :=
      h.nodes.congr rfl rfl rfl rfl rfl
    simpa using h1
  obtain ⟨n, t, hn, ht, hst, hen, hfl, htot, hrcv, hres⟩ :=
    hnodes.endfast start' end' f rqflags initcnt needmerge
  have hs : ∀ x ∈ L ++ (P ++ Q) ++ R, t.startseq_ x = s.startseq_ x := fun x hx => by
    rw [hst, Function.update_of_ne fun he => hn (by simp at hx ⊢; subst he; tauto)]
  have he : ∀ x ∈ L ++ (P ++ Q) ++ R, t.endseq_ x = s.endseq_ x := fun x hx => by
    rw [hen, Function.update_of_ne fun he => hn (by simp at hx ⊢; subst he; tauto)]
  have hf : ∀ x ∈ L ++ (P ++ Q) ++ R, t.pflags_ x = g x := fun x hx => by
    rw [hfl, Function.update_of_ne fun he => hn (by simp at hx ⊢; subst he; tauto)]
  have hsn : t.startseq_ n = start' := by rw [hst, Function.update_self]
  have hen' : t.endseq_ n = end' := by rw [hen, Function.update_self]
  have hfn : t.pflags_ n = f := by rw [hfl, Function.update_self]
  rw [hres]
  rcases hP with ⟨rfl, rfl, hL⟩ | ⟨p, rfl, hp1, hp2, hp3, hp4⟩
  · rcases hQ with ⟨rfl, rfl, hR⟩ | ⟨q, rfl, hq1, hq2, hq3, hq4⟩
    · -- nothing is touched
      rw [if_neg (by simpa using hneed)]
      refine ⟨_, _, n :: ls, n, true, none, rfl, ?_⟩
      have ht' : Nodes (t.advance start' end') (L ++ n :: R) (n :: ls) := by
        have h1 : Nodes (t.advance start' end') _ _ := ht.congr rfl rfl rfl rfl rfl
        simpa using h1
      have hmem : ∀ x ∈ L ++ R, x ∈ L ++ ([] ++ []) ++ R := by simp
      refine ⟨h.absorb ht' (fun x hx => hs x (hmem x hx)) (fun x hx => he x (hmem x hx)) ?_ ?_ ?_
        ?_, fun x hx => hs x (hmem x hx), fun x hx => he x (hmem x hx),
        fun x hx => (hf x (hmem x hx)).trans (hg x hx), ?_, ?_, ?_, by simp, by simp, by simp, ?_⟩
      · exact (hsn.trans_le hle).trans hen'.ge
      · exact fun x hx => (hL x hx).trans_eq hsn.symm
      · exact fun x hx => (show t.endseq_ n = end' from hen') ▸ hR x hx
      · change t.total_ = _ - 0 + (t.endseq_ n - t.startseq_ n)
        rw [htot, hsn, hen', sub_zero]
      · exact fun v => by simp [advance, hsn]
      · exact fun v => by simp [advance, hen']
      · exact fun i => by simp [advance, hfn]
      · refine .inr ⟨n, .inl rfl, ?_⟩
        change adv t.rcv_nxt_ start' end' = adv s.rcv_nxt_ (t.startseq_ n) (t.endseq_ n)
        rw [hrcv, hsn, hen']
    · -- the block behind is extended
      rw [if_pos (hneed.mpr (by simp))]
      have ht' : Nodes t (L ++ n :: q :: R) (n :: ls) := by simpa using ht
      have hj : t.joins L.getLast? n = false := by
        cases hl : L.getLast? with
        | none => rfl
        | some a =>
          have ha := List.mem_of_getLast? hl
          have hlt := hL a ha
          simp [joins, hsn, he a (by simp [ha]), hlt.ne]
      obtain ⟨t', flags, h1, h2, h3, h4, h5, h6, h7⟩ :=
        ht'.coalesce_right (by rw [hen', hs q (by simp), hq1]) hj
      have hne : ∀ x ∈ L ++ R, x ≠ q := Nodes.ne (s := s) (by simpa using h.nodes)
      have hmem : ∀ x ∈ L ++ R, x ∈ L ++ ([] ++ [q]) ++ R := fun x hx => by
        simp only [List.mem_append] at hx ⊢
        tauto
      have hqs : t'.startseq_ q = start' := by rw [h3, Function.update_self, hsn]
      have hqe : t'.endseq_ q = s.endseq_ q := by rw [h4, he q (by simp)]
      have hqf : t'.pflags_ q = s.pflags_ q ||| f := by
        rw [h5, Function.update_self, hf q (by simp), hfn, hg' q (by simp)]
      have hqp := h.proper q (by simp)
      have hqR : ∀ x ∈ R, s.endseq_ q < s.startseq_ x := fun x hx =>
        View.lt (L := L ++ [q]) (by simpa using h) (by simp) hx
      have hst' : ∀ x ∈ L ++ R, t'.startseq_ x = s.startseq_ x := fun x hx => by
        rw [h3, Function.update_of_ne (hne x hx), hs x (hmem x hx)]
      have hen'' : ∀ x ∈ L ++ R, t'.endseq_ x = s.endseq_ x := fun x hx => by
        rw [h4, he x (hmem x hx)]
      refine ⟨t', flags, ls, q, false, none, by simpa using h1, h.absorb (by simpa using h2) hst'
        hen'' ?_ ?_ ?_ ?_, hst', hen'', ?_, ?_, ?_, ?_, by simp, by simp, by simp [hq4],
        .inr ⟨q, .inl rfl, ?_⟩⟩
      · omega
      · rwa [hqs]
      · rwa [hqe]
      · rw [h6, htot, hqs, hqe]
        simp only [List.nil_append, size_cons, size_nil]
        omega
      · intro x hx
        rw [h5, Function.update_of_ne (hne x hx), hf x (hmem x hx), hg x hx]
      · intro v
        simp only [hqs, List.nil_append, List.mem_singleton, exists_eq_left]
        omega
      · intro v
        simp only [hqe, List.nil_append, List.mem_singleton, exists_eq_left]
        omega
      · intro i
        simp [hqf, or_comm]
      · rw [h7, hrcv, hqs, hqe, hsn, he q (by simp)]
  · have hpp := h.proper p (by simp)
    have hLp : ∀ x ∈ L, s.endseq_ x < s.startseq_ p := fun x hx =>
      View.lt (R := p :: (Q ++ R)) (by simpa using h) hx (by simp)
    rcases hQ with ⟨rfl, rfl, hR⟩ | ⟨q, rfl, hq1, hq2, hq3, hq4⟩
    · -- the block before is extended
      rw [if_pos (hneed.mpr (by simp))]
      have ht' : Nodes t ((L ++ [p]) ++ n :: R) (n :: ls) := by simpa using ht
      have hj : t.joined n R.head? = false := by
        cases hr : R.head? with
        | none => rfl
        | some b =>
          have hb := List.mem_of_mem_head? hr
          have hlt := hR b hb
          simp [joined, hen', hs b (by simp [hb]), hlt.ne]
      obtain ⟨t', flags, h1, h2, h3, h4, h5, h6, h7⟩ :=
        ht'.coalesce_left (by rw [hsn, he p (by simp), hp1]) hj
      have hne : ∀ x ∈ L ++ R, x ≠ p := Nodes.ne (s := s) (by simpa using h.nodes)
      have hmem : ∀ x ∈ L ++ R, x ∈ L ++ ([p] ++ []) ++ R := fun x hx => by
        simp only [List.mem_append] at hx ⊢
        tauto
      have hps : t'.startseq_ p = s.startseq_ p := by rw [h3, hs p (by simp)]
      have hpe : t'.endseq_ p = end' := by rw [h4, Function.update_self, hen']
      have hpf : t'.pflags_ p = s.pflags_ p ||| f := by
        rw [h5, Function.update_self, hf p (by simp), hfn, hg' p (by simp)]
      have hst' : ∀ x ∈ L ++ R, t'.startseq_ x = s.startseq_ x := fun x hx => by
        rw [h3, hs x (hmem x hx)]
      have hen'' : ∀ x ∈ L ++ R, t'.endseq_ x = s.endseq_ x := fun x hx => by
        rw [h4, Function.update_of_ne (hne x hx), he x (hmem x hx)]
      refine ⟨t', flags, ls, p, false, none, by simpa using h1, h.absorb (by simpa using h2) hst'
        hen'' ?_ ?_ ?_ ?_, hst', hen'', ?_, ?_, ?_, ?_, by simp, by simp, by simp [hp4],
        .inr ⟨p, .inl rfl, ?_⟩⟩
      · omega
      · rwa [hps]
      · rwa [hpe]
      · rw [h6, htot, hps, hpe]
        simp only [List.append_nil, size_cons, size_nil]
        omega
      · intro x hx
        rw [h5, Function.update_of_ne (hne x hx), hf x (hmem x hx), hg x hx]
      · intro v
        simp only [hps, List.append_nil, List.mem_singleton, exists_eq_left]
        omega
      · intro v
        simp only [hpe, List.append_nil, List.mem_singleton, exists_eq_left]
        omega
      · intro i
        simp [hpf, or_comm]
      · rw [h7, hrcv, hps, hpe, hen', hs p (by simp)]
    · -- the hole between two blocks is filled
      rw [if_pos (hneed.mpr (by simp))]
      have ht' : Nodes t ((L ++ [p]) ++ n :: q :: R) (n :: ls) := by simpa using ht
      obtain ⟨t', flags, h1, h2, h3, h4, h5, h6, h7⟩ := ht'.coalesce_both
        (by rw [hsn, he p (by simp), hp1]) (by rw [hen', hs q (by simp), hq1])
      have hpq : s.endseq_ p < s.startseq_ q :=
        View.lt (L := L ++ [p]) (R := q :: R) (by simpa using h) (by simp) (by simp)
      have hne : ∀ x ∈ L ++ q :: R, x ≠ p := Nodes.ne (s := s) (by simpa using h.nodes)
      have hqp := h.proper q (by simp)
      have hqR : ∀ x ∈ R, s.endseq_ q < s.startseq_ x := fun x hx =>
        View.lt (L := L ++ [p, q]) (by simpa using h) (by simp) hx
      have hmem : ∀ x ∈ L ++ R, x ∈ L ++ ([p] ++ [q]) ++ R := fun x hx => by
        simp only [List.mem_append] at hx ⊢
        tauto
      have hne' : ∀ x ∈ L ++ R, x ≠ p := fun x hx => hne x (by
        simp only [List.mem_append, List.mem_cons] at hx ⊢
        tauto)
      have hps : t'.startseq_ p = s.startseq_ p := by rw [h3, hs p (by simp)]
      have hpe : t'.endseq_ p = s.endseq_ q := by rw [h4, Function.update_self, he q (by simp)]
      have hpf : t'.pflags_ p = s.pflags_ p ||| f := by
        rw [h5, Function.update_self, hf p (by simp), hfn, hg' p (by simp)]
      have hst' : ∀ x ∈ L ++ R, t'.startseq_ x = s.startseq_ x := fun x hx => by
        rw [h3, hs x (hmem x hx)]
      have hen'' : ∀ x ∈ L ++ R, t'.endseq_ x = s.endseq_ x := fun x hx => by
        rw [h4, Function.update_of_ne (hne' x hx), he x (hmem x hx)]
      have hstack : ls.erase q = ls.filter fun x => x = p ∨ x ∉ [p] ++ [q] := by
        have hnd := h.nodes.perm.nodup_iff.mpr h.nodes.nodup
        have hqp : q ≠ p := hne q (by simp)
        rw [hnd.erase_eq_filter]
        refine List.filter_congr fun x _ => ?_
        rw [Bool.eq_iff_iff]
        by_cases hx : x = p
        · subst hx
          simp [hqp.symm]
        · simp [hx]
      refine ⟨t', flags, ls.erase q, p, false, some q, by simpa using h1,
        h.absorb (by simpa using h2) hst' hen'' ?_ ?_ ?_ ?_, hst', hen'', ?_, ?_, ?_, ?_, ?_,
        hstack, ?_, .inr ⟨p, .inl rfl, ?_⟩⟩
      · omega
      · rwa [hps]
      · rwa [hpe]
      · rw [h6, htot, hps, hpe]
        simp only [List.singleton_append, size_cons, size_nil]
        omega
      · intro x hx
        rw [h5, Function.update_of_ne (hne' x hx), hf x (hmem x hx), hg x hx]
      · intro v
        simp [hps]
        omega
      · intro v
        simp [hpe]
        omega
      · intro i
        have hqp : q ≠ p := hne q (by simp)
        simp [hpf, hqp, or_comm]
      · intro b hb
        obtain rfl : q = b := Option.some.inj hb
        exact ⟨by simp, hq4, p, by simp, hp4, hpq⟩
      · refine fun _ => ⟨by simp, hp4, fun a ha hap => .inr ?_⟩
        obtain rfl : a = q := by simpa [hap] using ha
        exact hpq
      · rw [h7, hrcv, hps, hpe, hs p (by simp), he q (by simp)]

/-! ### Merging -/

theorem getLast?_split {m : ℕ} (h : L.getLast? = some m) : ∃ L', L = L' ++ [m] :=
  List.getLast?_eq_some_iff.mp h

theorem head?_split {m : ℕ} (h : R.head? = some m) : ∃ R', R = m :: R' := by
  cases R with
  | nil => cases h
  | cons c R => exact ⟨R, by rw [Option.some.inj h]⟩

/-- The segment meets a single block, and widens it. -/
theorem View.single (h : View s (L ++ [m] ++ R) ls) (ht : Nodes t (L ++ m :: R) ls)
    (hst : t.startseq_ = Function.update s.startseq_ m (min start (s.startseq_ m)))
    (hen : t.endseq_ = Function.update s.endseq_ m (max end_ (s.endseq_ m)))
    (hfl : ∀ x ∈ L ++ R, t.pflags_ x = s.pflags_ x)
    (hfm : ∀ i, (t.pflags_ m).testBit i = true ↔
      f.testBit i = true ∨ (s.pflags_ m).testBit i = true)
    (htot : t.total_ = s.total_ - (s.endseq_ m - s.startseq_ m) + (t.endseq_ m - t.startseq_ m))
    (hrcv : ∃ h, (L ++ m :: R).head? = some h ∧
      t.rcv_nxt_ = adv s.rcv_nxt_ (t.startseq_ h) (t.endseq_ h))
    (hL : ∀ x ∈ L, s.endseq_ x < start) (hR : ∀ x ∈ R, end_ < s.startseq_ x)
    (hm : ¬ s.Overlapped start end_ m) : Gathers s t L [m] R ls ls m false none start end_ f := by
  have hne : ∀ x ∈ L ++ R, x ≠ m := Nodes.ne (s := s) (by simpa using h.nodes)
  have hpos := h.proper m (by simp)
  have hLm : ∀ x ∈ L, s.endseq_ x < s.startseq_ m := fun x hx =>
    View.lt (R := m :: R) (by simpa using h) hx (by simp)
  have hmR : ∀ x ∈ R, s.endseq_ m < s.startseq_ x := fun x hx => View.lt h (by simp) hx
  have hsm : t.startseq_ m = min start (s.startseq_ m) := by rw [hst, Function.update_self]
  have hem : t.endseq_ m = max end_ (s.endseq_ m) := by rw [hen, Function.update_self]
  have hs : ∀ x ∈ L ++ R, t.startseq_ x = s.startseq_ x := fun x hx => by
    rw [hst, Function.update_of_ne (hne x hx)]
  have he : ∀ x ∈ L ++ R, t.endseq_ x = s.endseq_ x := fun x hx => by
    rw [hen, Function.update_of_ne (hne x hx)]
  refine ⟨h.absorb ht hs he (by omega) ?_ ?_ ?_, hs, he, hfl, ?_, ?_, ?_, by simp, by simp,
    by simp [hm], .inr ?_⟩
  · intro x hx
    have h1 := hL x hx
    have h2 := hLm x hx
    omega
  · intro x hx
    have h1 := hR x hx
    have h2 := hmR x hx
    omega
  · simpa only [size_cons, size_nil, add_zero] using htot
  · intro v
    simp only [hsm, List.mem_singleton, exists_eq_left]
    omega
  · intro v
    simp only [hem, List.mem_singleton, exists_eq_left]
    omega
  · intro i
    simp [hfm i]
  · obtain ⟨k, h1, h2⟩ := hrcv
    exact ⟨k, .inr h1, h2⟩

theorem Nodes.return_head (h : Nodes s (L ++ m :: R) ls) (tiflags : ℕ) : ∃ a,
    (L ++ m :: R).head? = some a ∧
      ((s.deref s.fifo.head).map fun a => (s.advance (s.startseq_ a) (s.endseq_ a), tiflags)) =
        some (s.advance (s.startseq_ a) (s.endseq_ a), tiflags) := by
  cases L with
  | nil =>
    have hd := h.deref_head
    exact ⟨m, rfl, by rw [hd]; rfl⟩
  | cons a L =>
    have hd := Nodes.deref_head (R := L ++ m :: R) h
    exact ⟨a, rfl, by rw [hd]; rfl⟩

theorem Nodes.leftBlock {b : ℕ} (h : Nodes s (L ++ b :: R) ls) (start : ℤ) :
    s.leftBlock L.getLast? start =
      some (if L = [] ∨ s.startseq_ b < start then some b else none) := by
  cases hl : L.getLast? with
  | none =>
    obtain rfl := List.getLast?_eq_none_iff.mp hl
    rw [ReassemblyQueue.leftBlock, h.deref_head, if_pos (.inl rfl)]
    rfl
  | some a =>
    obtain ⟨L, rfl⟩ := getLast?_split hl
    have h' : Nodes s (L ++ a :: b :: R) ls := by simpa using h
    rw [ReassemblyQueue.leftBlock, deref_of_live rfl (h.live a (by simp)), Option.bind_some,
      h'.deref_next]
    simp

theorem Nodes.rightBlock {a : ℕ} (h : Nodes s (L ++ [a] ++ R) ls) (end_ : ℤ) :
    s.rightBlock R.head? end_ = some (if R = [] ∨ s.endseq_ a > end_ then some a else none) := by
  cases R with
  | nil =>
    have h' : Nodes s (L ++ [a]) ls := by simpa using h
    rw [List.head?_nil, ReassemblyQueue.rightBlock, h'.deref_tail, if_pos (.inl rfl)]
    rfl
  | cons b R =>
    have h' : Nodes s (L ++ a :: b :: R) ls := by simpa using h
    rw [List.head?_cons, ReassemblyQueue.rightBlock, deref_of_live rfl (h.live b (by simp)),
      Option.bind_some, h'.deref_prev]
    simp

theorem Nodes.touches {a b : ℕ} (h : Nodes s (L ++ a :: b :: R) ls) (ha : s.endseq_ a ≤ start)
    (hb : end_ ≤ s.startseq_ b) : s.touches (some a) (some b) start end_ =
      some (decide (s.endseq_ a = start ∨ s.startseq_ b = end_)) := by
  rw [ReassemblyQueue.touches, deref_of_live rfl (h.live a (by simp)), Option.bind_some,
    if_pos ⟨h.fifo.next, ha⟩, deref_of_live rfl (h.live b (by simp)), Option.map_some]
  simp [hb]

/-- A block that is cut on its right side is marked with the flags. -/
theorem mergeLeft_eq (h : s.startseq_ m ≤ start) : s.mergeLeft m start f =
    { s with
      pflags_ := Function.update s.pflags_ m (s.pflags_ m ||| f)
      cnt_ := Function.update s.cnt_ m (s.cnt_ m + 1) } := by
  rw [mergeLeft, if_neg h.not_gt, if_neg h.not_gt]

theorem mergeRight_eq (h : end_ ≤ s.endseq_ m) : s.mergeRight m end_ f =
    { s with pflags_ := Function.update s.pflags_ m (s.pflags_ m ||| f) } := by
  rw [mergeRight, if_neg h.not_gt, if_neg h.not_gt]

theorem or_or_self_right (a f : ℕ) : a ||| f ||| f = a ||| f := by
  rw [Nat.or_assoc, Nat.or_self]

/-- A block that the segment overlaps, but not completely. -/
def Cut (s : ReassemblyQueue) (start end_ : ℤ) (m : ℕ) : Prop :=
  start < s.endseq_ m ∧ s.startseq_ m < end_ ∧ ¬ (start ≤ s.startseq_ m ∧ end_ ≥ s.endseq_ m)

theorem Cut.not_overlapped (h : s.Cut start end_ m) : ¬ s.Overlapped start end_ m :=
  fun ho => h.2.2 ⟨ho.1, ho.2.1⟩

/-- Behind the left end of the segment, only one block is cut, on its right end. -/
theorem View.cut_right {M : List ℕ} (h : View s (L ++ (m :: M) ++ R) ls)
    (hm : start ≤ s.endseq_ m) (hM : ∀ x ∈ M, s.Cut start end_ x) :
    M = [] ∨ ∃ x, M = [x] ∧ s.endseq_ m < s.startseq_ x ∧ s.startseq_ x < end_ ∧
      end_ < s.endseq_ x := by
  cases M with
  | nil => exact .inl rfl
  | cons x M =>
    have hmx : s.endseq_ m < s.startseq_ x :=
      View.lt (L := L ++ [m]) (R := x :: M ++ R) (by simpa using h) (by simp) (by simp)
    have hx := hM x (by simp)
    have hxe : end_ < s.endseq_ x := by
      by_contra hge
      exact hx.2.2 ⟨by omega, not_lt.mp hge⟩
    cases M with
    | nil => exact .inr ⟨x, rfl, hmx, hx.2.1, hxe⟩
    | cons y M =>
      have hxy : s.endseq_ x < s.startseq_ y :=
        View.lt (L := L ++ [m, x]) (R := y :: M ++ R) (by simpa using h) (by simp) (by simp)
      have hy := (hM y (by simp)).2.1
      omega

/-- No block is touched behind a block that reaches the end of the segment. -/
theorem View.no_right (h : View s (L ++ m :: (Q ++ R)) ls) (hm : end_ ≤ s.endseq_ m)
    (hQ : Q = [] ∨ ∃ q, Q = [q] ∧ s.startseq_ q = end_) : Q = [] := by
  rcases hQ with rfl | ⟨q, rfl, hq⟩
  · rfl
  · have hlt : s.endseq_ m < s.startseq_ q :=
      View.lt (L := L ++ [m]) (R := q :: R) (by simpa using h) (by simp) (by simp)
    omega

/-- No block is touched before a block that the start of the segment reaches. -/
theorem View.no_left (h : View s (L ++ P ++ m :: R) ls) (hm : s.startseq_ m ≤ start)
    (hP : P = [] ∨ ∃ p, P = [p] ∧ s.endseq_ p = start ∧ ¬ s.Overlapped start end_ p) : P = [] := by
  rcases hP with rfl | ⟨p, rfl, hp, -⟩
  · rfl
  · have hlt : s.endseq_ p < s.startseq_ m := View.lt h (by simp) (by simp)
    omega

/-- The segment lies between two adjacent blocks. -/
theorem View.merge_between (h : View s (L ++ (P ++ Q) ++ R) ls) (hlt : start < end_)
    (hL : ∀ a ∈ L, s.endseq_ a < start)
    (hP : P = [] ∨ ∃ p, P = [p] ∧ s.endseq_ p = start ∧ ¬ s.Overlapped start end_ p)
    (hQ : Q = [] ∨ ∃ q, Q = [q] ∧ s.startseq_ q = end_) (hR : ∀ b ∈ R, end_ < s.startseq_ b)
    (hne : L ++ P ≠ []) (hne' : Q ++ R ≠ []) (rqflags : ℕ) (initcnt : ℤ) :
    ∃ t flags ls' m fresh lost,
      s.merge (L ++ P).getLast? (Q ++ R).head? start end_ f rqflags initcnt = some (t, flags) ∧
        Gathers s t L (P ++ Q) R ls ls' m fresh lost start end_ f := by
  obtain ⟨A, a, hA⟩ : ∃ A a, L ++ P = A ++ [a] := ⟨_, _, (List.dropLast_append_getLast hne).symm⟩
  obtain ⟨b, B, hB⟩ := List.exists_cons_of_ne_nil hne'
  have hsplit : L ++ (P ++ Q) ++ R = A ++ a :: b :: B := by
    rw [← List.append_assoc L, hA, List.append_assoc, hB]
    simp
  have hnodes := h.nodes
  rw [hsplit] at hnodes
  have ha : s.endseq_ a ≤ start := by
    have hmem : a ∈ L ++ P := by simp [hA]
    rcases List.mem_append.mp hmem with hm | hm
    · exact (hL a hm).le
    · rcases hP with rfl | ⟨p, rfl, hp, -⟩
      · cases hm
      · exact (List.mem_singleton.mp hm ▸ hp).le
  have hb : end_ ≤ s.startseq_ b := by
    have hmem : b ∈ Q ++ R := by simp [hB]
    rcases List.mem_append.mp hmem with hm | hm
    · rcases hQ with rfl | ⟨q, rfl, hq⟩
      · cases hm
      · exact (List.mem_singleton.mp hm ▸ hq).ge
    · exact (hR b hm).le
  have hpos := h.proper a (by simp [hsplit])
  have hpos' := h.proper b (by simp [hsplit])
  have htouch : decide (s.endseq_ a = start ∨ s.startseq_ b = end_) = true ↔ P ++ Q ≠ [] := by
    rw [decide_eq_true_eq]
    rcases hP with rfl | ⟨p, rfl, hp, -⟩
    · have hae : s.endseq_ a < start := hL a (by rw [← List.append_nil L, hA]; simp)
      rcases hQ with rfl | ⟨q, rfl, hq⟩
      · have hbe : end_ < s.startseq_ b := hR b (by rw [← List.nil_append R, hB]; simp)
        simp [hae.ne, hbe.ne']
      · obtain rfl : q = b := by simpa using congrArg List.head? hB
        simp [hq]
    · obtain rfl : p = a := by simpa using congrArg List.getLast? hA
      simp [hp]
  have hleft : s.leftBlock (some a) start = some none := by
    have := Nodes.leftBlock (L := A ++ [a]) (b := b) (R := B) (s := s) (by simpa using hnodes) start
    rw [List.getLast?_concat] at this
    rw [this, if_neg (by simp; omega)]
  have hright : s.rightBlock (some b) end_ = some none := by
    have := Nodes.rightBlock (L := A) (a := a) (R := b :: B) (s := s) (by simpa using hnodes) end_
    rw [List.head?_cons] at this
    rw [this, if_neg (by simp; omega)]
  have hmerge : s.merge (L ++ P).getLast? (Q ++ R).head? start end_ f rqflags initcnt =
      s.endfast (L ++ P).getLast? (Q ++ R).head? start end_ f rqflags initcnt
        (decide (s.endseq_ a = start ∨ s.startseq_ b = end_)) := by
    rw [hA, hB, List.getLast?_concat, List.head?_cons, ReassemblyQueue.merge, hleft,
      Option.bind_some]
    dsimp only
    rw [merge', hright, Option.bind_some]
    dsimp only
    rw [if_neg hlt.not_ge, if_neg Bool.false_ne_true, hnodes.touches ha hb, Option.bind_some]
  rw [hmerge]
  apply h.endfast start end_ f (g := s.pflags_) (c := s.cnt_) (fun _ _ => rfl) (fun _ _ => rfl)
    hlt.le
  · rcases hP with rfl | ⟨p, rfl, hp, hp'⟩
    · exact .inl ⟨rfl, rfl, hL⟩
    · exact .inr ⟨p, rfl, hp, le_rfl, .inl rfl, hp'⟩
  · rcases hQ with rfl | ⟨q, rfl, hq⟩
    · exact .inl ⟨rfl, rfl, hR⟩
    · exact .inr ⟨q, rfl, hq, le_rfl, .inl rfl, fun ho => ho.2.2.1.ne hq⟩
  · exact htouch

/-- The first block that is cut is the one that the segment ends in, or the queue ends with it. -/
theorem View.merge_around (h : View s (L ++ [m] ++ R) ls) (hL : ∀ a ∈ L, s.endseq_ a < start)
    (hm : s.Cut start end_ m) (hR : ∀ b ∈ R, end_ < s.startseq_ b)
    (hc : L = [] ∨ s.startseq_ m < start) (hc' : R = [] ∨ end_ < s.endseq_ m) (rqflags : ℕ)
    (initcnt : ℤ) : ∃ t flags,
      s.merge L.getLast? R.head? start end_ f rqflags initcnt = some (t, flags) ∧
        Gathers s t L [m] R ls ls m false none start end_ f := by
  have hnodes : Nodes s (L ++ m :: R) ls := by simpa using h.nodes
  have hne := hnodes.ne
  have hpos := h.proper m (by simp)
  have h1 : Nodes (s.mergeLeft m start f) (L ++ [m] ++ R) ls := h.nodes.congr rfl rfl rfl rfl rfl
  have hen : (s.mergeLeft m start f).endseq_ = s.endseq_ := rfl
  have hst : (s.mergeLeft m start f).startseq_ =
      Function.update s.startseq_ m (min start (s.startseq_ m)) := by
    change (if start < s.startseq_ m then _ else _) = _
    split_ifs with hlt
    · rw [min_eq_left hlt.le]
    · rw [min_eq_right (not_lt.mp hlt), Function.update_eq_self]
  generalize hs1 : s.mergeLeft m start f = s1 at h1 hen hst
  have h2 : Nodes (s1.mergeRight m end_ f) (L ++ m :: R) ls := by
    have h2 : Nodes (s1.mergeRight m end_ f) _ _ := h1.congr rfl rfl rfl rfl rfl
    simpa using h2
  have hen2 : (s1.mergeRight m end_ f).endseq_ =
      Function.update s.endseq_ m (max end_ (s.endseq_ m)) := by
    change (if end_ > s1.endseq_ m then _ else _) = _
    rw [hen]
    split_ifs with hgt
    · rw [max_eq_left hgt.le]
    · rw [max_eq_right (not_lt.mp hgt), Function.update_eq_self]
  have hst2 : (s1.mergeRight m end_ f).startseq_ = s1.startseq_ := rfl
  have hfl2 : (s1.mergeRight m end_ f).pflags_ =
      Function.update s.pflags_ m (s.pflags_ m ||| f) := by
    subst hs1
    change Function.update (Function.update s.pflags_ m _) m _ = _
    rw [Function.update_idem, show (s.mergeLeft m start f).pflags_ m = s.pflags_ m ||| f from
      Function.update_self _ _ _, or_or_self_right]
  have htot1 : s1.total_ = s.total_ + (s.startseq_ m - min start (s.startseq_ m)) := by
    subst hs1
    change (if start < s.startseq_ m then _ else _) = _
    split_ifs <;> omega
  have htot2 : (s1.mergeRight m end_ f).total_ =
      s.total_ + (s.startseq_ m - min start (s.startseq_ m)) +
        (max end_ (s.endseq_ m) - s.endseq_ m) := by
    change (if end_ > s1.endseq_ m then _ else _) = _
    rw [hen, htot1]
    split_ifs <;> omega
  have hrcv : (s1.mergeRight m end_ f).rcv_nxt_ = s.rcv_nxt_ := by
    subst hs1
    rfl
  obtain ⟨k, hk, hret⟩ := h2.return_head f
  have hle : (s1.mergeRight m end_ f).startseq_ m ≤ s.endseq_ m := by
    rw [hst2, hst, Function.update_self]
    omega
  let t := (s1.mergeRight m end_ f).advance ((s1.mergeRight m end_ f).startseq_ k)
    ((s1.mergeRight m end_ f).endseq_ k)
  have hadv : t.rcv_nxt_ = adv s.rcv_nxt_ (t.startseq_ k) (t.endseq_ k) := by
    rw [← hrcv]
    rfl
  refine ⟨t, f, ?_, h.single (h2.congr rfl rfl rfl rfl rfl) (hst2.trans hst) hen2 ?_ ?_ ?_
    ⟨k, hk, hadv⟩ hL hR hm.not_overlapped⟩
  · rw [ReassemblyQueue.merge, hnodes.leftBlock, Option.bind_some, if_pos hc]
    dsimp only
    rw [hs1, merge', h1.rightBlock, Option.bind_some, if_pos (by rwa [hen])]
    dsimp only
    rw [hen, if_pos hle]
    exact hret
  · intro x hx
    change (s1.mergeRight m end_ f).pflags_ x = _
    rw [hfl2, Function.update_of_ne (hne x hx)]
  · intro i
    change ((s1.mergeRight m end_ f).pflags_ m).testBit i = true ↔ _
    rw [hfl2, Function.update_self]
    simp [or_comm]
  · change (s1.mergeRight m end_ f).total_ = _ + ((s1.mergeRight m end_ f).endseq_ m -
      (s1.mergeRight m end_ f).startseq_ m)
    rw [htot2, hen2, hst2, hst, Function.update_self, Function.update_self]
    omega

/-- The flags of two marked blocks, as `endfast` finds them. -/
theorem marked_or (g : ℕ → ℕ) (a x : ℕ) : Function.update g a (g a ||| f) x ||| f = g x ||| f := by
  by_cases hx : x = a
  · rw [hx, Function.update_self, or_or_self_right]
  · rw [Function.update_of_ne hx]

/-- The segment starts in a block that ends in it. -/
theorem View.merge_left (h : View s (L ++ ([m] ++ Q) ++ R) ls) (hm : s.Cut start end_ m)
    (hm' : s.endseq_ m < end_) (hQ : Q = [] ∨ ∃ q, Q = [q] ∧ s.startseq_ q = end_)
    (hR : ∀ b ∈ R, end_ < s.startseq_ b)
    (hne : Q ++ R ≠ []) (rqflags : ℕ) (initcnt : ℤ) : ∃ t flags ls' n fresh lost,
      s.merge L.getLast? (Q ++ R).head? start end_ f rqflags initcnt = some (t, flags) ∧
        Gathers s t L ([m] ++ Q) R ls ls' n fresh lost start end_ f := by
  have hlt : s.startseq_ m < start := by
    by_contra hge
    exact hm.2.2 ⟨not_lt.mp hge, hm'.le⟩
  have hnodes : Nodes s (L ++ m :: (Q ++ R)) ls := by simpa using h.nodes
  obtain ⟨t, flags, ls', n, fresh, lost, h1, h2⟩ := h.endfast start end_ f
    (g := Function.update s.pflags_ m (s.pflags_ m ||| f))
    (c := Function.update s.cnt_ m (s.cnt_ m + 1))
    (fun x hx => Function.update_of_ne (hnodes.ne x (by
      simp only [List.mem_append] at hx ⊢
      tauto)) _ _)
    (fun x _ => marked_or s.pflags_ m x) hm'.le
    (.inr ⟨m, rfl, rfl, hm.1.le, .inr hlt.le, hm.not_overlapped⟩)
    (hQ.imp (fun hq => ⟨hq, rfl, hR⟩) fun ⟨q, hq, hqe⟩ =>
      ⟨q, hq, hqe, le_rfl, .inl rfl, fun ho => ho.2.2.1.ne hqe⟩) rqflags (initcnt - 1)
    (show true = true ↔ [m] ++ Q ≠ [] by simp)
  refine ⟨t, flags, ls', n, fresh, lost, ?_, h2⟩
  have hright : (s.mergeLeft m start f).rightBlock (Q ++ R).head? end_ = some none := by
    have h3 : Nodes (s.mergeLeft m start f) (L ++ [m] ++ (Q ++ R)) ls := by
      have h4 : Nodes (s.mergeLeft m start f) _ _ := hnodes.congr rfl rfl rfl rfl rfl
      simpa using h4
    rw [h3.rightBlock, if_neg]
    rw [not_or]
    exact ⟨hne, hm'.not_gt⟩
  rw [ReassemblyQueue.merge, hnodes.leftBlock, Option.bind_some, if_pos (.inr hlt)]
  dsimp only
  rw [merge', hright, Option.bind_some]
  dsimp only
  rw [show (s.mergeLeft m start f).endseq_ m = s.endseq_ m from rfl, if_neg hm'.not_ge, if_pos rfl,
    Option.bind_some, mergeLeft_eq hlt.le, ← h1, List.getLast?_concat]

/-- The segment ends in a block that starts in it. -/
theorem View.merge_right (h : View s (L ++ (P ++ [m]) ++ R) ls)
    (hL : ∀ a ∈ L, s.endseq_ a < start)
    (hP : P = [] ∨ ∃ p, P = [p] ∧ s.endseq_ p = start ∧ ¬ s.Overlapped start end_ p)
    (hm : s.Cut start end_ m) (hm' : start < s.startseq_ m) (hne : L ++ P ≠ []) (rqflags : ℕ)
    (initcnt : ℤ) : ∃ t flags ls' n fresh lost,
      s.merge (L ++ P).getLast? R.head? start end_ f rqflags initcnt = some (t, flags) ∧
        Gathers s t L (P ++ [m]) R ls ls' n fresh lost start end_ f := by
  have hlt : end_ < s.endseq_ m := by
    by_contra hge
    exact hm.2.2 ⟨hm'.le, not_lt.mp hge⟩
  have hnodes : Nodes s ((L ++ P) ++ m :: R) ls := by simpa using h.nodes
  obtain ⟨t, flags, ls', n, fresh, lost, h1, h2⟩ := h.endfast start end_ f
    (g := Function.update s.pflags_ m (s.pflags_ m ||| f)) (c := s.cnt_)
    (fun x hx => Function.update_of_ne (hnodes.ne x (by
      simp only [List.mem_append] at hx ⊢
      tauto)) _ _)
    (fun x _ => marked_or s.pflags_ m x) hm'.le
    (hP.imp (fun hp => ⟨hp, rfl, hL⟩) fun ⟨p, hp, hpe, ho⟩ =>
      ⟨p, hp, hpe, le_rfl, .inl rfl, ho⟩)
    (.inr ⟨m, rfl, rfl, hm.2.1.le, .inr hlt.le, hm.not_overlapped⟩) rqflags initcnt
    (show true = true ↔ P ++ [m] ≠ [] by simp)
  refine ⟨t, flags, ls', n, fresh, lost, ?_, h2⟩
  have h3 : Nodes s ((L ++ P) ++ [m] ++ R) ls := by simpa using hnodes
  rw [ReassemblyQueue.merge, hnodes.leftBlock, Option.bind_some, if_neg (by
    rw [not_or]
    exact ⟨hne, hm'.not_gt⟩)]
  dsimp only
  rw [merge', h3.rightBlock, Option.bind_some, if_pos (.inr hlt)]
  dsimp only
  rw [show (s.mergeRight m end_ f).startseq_ m = s.startseq_ m from rfl, if_neg hm'.not_ge,
    mergeRight_eq hlt.le, ← h1]
  rfl

/-- The segment fills the space between two blocks that it cuts. -/
theorem View.merge_both {a b : ℕ} (h : View s (L ++ ([a] ++ [b]) ++ R) ls)
    (ha : s.Cut start end_ a) (hb : s.Cut start end_ b) (rqflags : ℕ) (initcnt : ℤ) :
    ∃ t flags ls' n fresh lost,
      s.merge L.getLast? R.head? start end_ f rqflags initcnt = some (t, flags) ∧
        Gathers s t L ([a] ++ [b]) R ls ls' n fresh lost start end_ f := by
  have hab : s.endseq_ a < s.startseq_ b :=
    View.lt (L := L ++ [a]) (R := b :: R) (by simpa using h) (by simp) (by simp)
  have hlt : s.startseq_ a < start := by
    by_contra hge
    exact ha.2.2 ⟨not_lt.mp hge, (hab.trans hb.2.1).le⟩
  have hgt : end_ < s.endseq_ b := by
    by_contra hge
    exact hb.2.2 ⟨(ha.1.trans hab).le, not_lt.mp hge⟩
  have hnodes : Nodes s (L ++ a :: b :: R) ls := by simpa using h.nodes
  have hne : b ≠ a := hnodes.ne b (by simp)
  let g := Function.update s.pflags_ a (s.pflags_ a ||| f)
  obtain ⟨t, flags, ls', n, fresh, lost, h1, h2⟩ := h.endfast start end_ f
    (g := Function.update g b (g b ||| f)) (c := Function.update s.cnt_ a (s.cnt_ a + 1))
    (fun x hx => by
      have hxa : x ≠ a := hnodes.ne x (by
        simp only [List.mem_append, List.mem_cons] at hx ⊢
        tauto)
      have hxb : x ≠ b := Nodes.ne (s := s) (L := L ++ [a]) (R := R) (by simpa using hnodes) x (by
        simp only [List.mem_append] at hx ⊢
        tauto)
      rw [Function.update_of_ne hxb]
      exact Function.update_of_ne hxa _ _)
    (fun x _ => by rw [marked_or, marked_or]) hab.le
    (.inr ⟨a, rfl, rfl, ha.1.le, .inr hlt.le, ha.not_overlapped⟩)
    (.inr ⟨b, rfl, rfl, hb.2.1.le, .inr hgt.le, hb.not_overlapped⟩) rqflags (initcnt - 1)
    (show true = true ↔ [a] ++ [b] ≠ [] by simp)
  refine ⟨t, flags, ls', n, fresh, lost, ?_, h2⟩
  have h3 : Nodes (s.mergeLeft a start f) ((L ++ [a]) ++ [b] ++ R) ls := by
    have h4 : Nodes (s.mergeLeft a start f) _ _ := hnodes.congr rfl rfl rfl rfl rfl
    simpa using h4
  rw [ReassemblyQueue.merge, hnodes.leftBlock, Option.bind_some, if_pos (.inr hlt)]
  dsimp only
  rw [merge', h3.rightBlock, Option.bind_some, if_pos (.inr hgt)]
  dsimp only
  rw [mergeRight_eq (s := s.mergeLeft a start f) (m := b) (f := f) hgt.le, mergeLeft_eq hlt.le]
  dsimp only
  rw [if_neg hab.not_ge, ← h1, List.getLast?_concat]
  rfl

/-- The segment is part of a block, and only marks it. -/
theorem View.within (h : View s (L ++ [m] ++ R) ls) (hm : s.startseq_ m ≤ start)
    (hm' : end_ ≤ s.endseq_ m) (hL : ∀ a ∈ L, s.endseq_ a < start)
    (hR : ∀ b ∈ R, end_ < s.startseq_ b) (ho : ¬ s.Overlapped start end_ m) {t : ReassemblyQueue}
    {c : ℕ → ℤ} (ht : t = { s with
      pflags_ := Function.update s.pflags_ m (s.pflags_ m ||| f)
      cnt_ := c }) :
    ∃ t', ((t.deref t.fifo.head).map fun a => (t.advance (t.startseq_ a) (t.endseq_ a), f)) =
      some (t', f) ∧ Gathers s t' L [m] R ls ls m false none start end_ f := by
  have hnodes : Nodes s (L ++ m :: R) ls := by simpa using h.nodes
  have h1 : Nodes t (L ++ m :: R) ls := by
    subst ht
    exact hnodes.congr rfl rfl rfl rfl rfl
  obtain ⟨k, hk, hret⟩ := h1.return_head f
  subst ht
  refine ⟨_, hret, h.single (h1.congr rfl rfl rfl rfl rfl) ?_ ?_ ?_ ?_ ?_ ⟨k, hk, rfl⟩ hL hR ho⟩
  · rw [min_eq_right hm, Function.update_eq_self]
    rfl
  · rw [max_eq_right hm', Function.update_eq_self]
    rfl
  · exact fun x hx => Function.update_of_ne (hnodes.ne x hx) _ _
  · intro i
    simp [advance, or_comm]
  · simp [advance]

/-- A segment that kills nothing, between the blocks before it and those behind it. -/
theorem View.merge {M : List ℕ} (h : View s (L ++ (P ++ M ++ Q) ++ R) ls)
    (hL : ∀ a ∈ L, s.endseq_ a < start)
    (hP : P = [] ∨ ∃ p, P = [p] ∧ s.endseq_ p = start ∧ ¬ s.Overlapped start end_ p)
    (hM : ∀ m ∈ M, s.Cut start end_ m) (hQ : Q = [] ∨ ∃ q, Q = [q] ∧ s.startseq_ q = end_)
    (hR : ∀ b ∈ R, end_ < s.startseq_ b)
    (hne : M ≠ [] ∨ start < end_ ∧ L ++ P ≠ [] ∧ Q ++ R ≠ []) (rqflags : ℕ) (initcnt : ℤ) :
    ∃ t flags ls' n fresh lost,
      s.merge (L ++ P).getLast? (Q ++ R).head? start end_ f rqflags initcnt = some (t, flags) ∧
        Gathers s t L (P ++ M ++ Q) R ls ls' n fresh lost start end_ f := by
  cases M with
  | nil =>
    obtain ⟨hlt, hne1, hne2⟩ := hne.resolve_left fun hh => hh rfl
    rw [List.append_nil] at h ⊢
    exact h.merge_between hlt hL hP hQ hR hne1 hne2 rqflags initcnt
  | cons m M =>
    have hm := hM m (by simp)
    have hcut := View.cut_right (L := L ++ P) (R := Q ++ R) (M := M) (by simpa using h) hm.1.le
      fun x hx => hM x (List.mem_cons_of_mem m hx)
    have hleft : s.startseq_ m ≤ start → P = [] := fun hle =>
      View.no_left (L := L) (R := M ++ Q ++ R) (by simpa using h) hle hP
    rcases hcut with rfl | ⟨x, rfl, hx1, hx2, hx3⟩
    · have hright : end_ ≤ s.endseq_ m → Q = [] := fun hle =>
        View.no_right (L := L ++ P) (R := R) (by simpa using h) hle hQ
      have hnodes : Nodes s ((L ++ P) ++ m :: (Q ++ R)) ls := by simpa using h.nodes
      by_cases hc : L ++ P = [] ∨ s.startseq_ m < start
      · obtain rfl : P = [] := by
          rcases hc with hc | hc
          · exact (List.append_eq_nil_iff.mp hc).2
          · exact hleft hc.le
        rw [List.append_nil] at hc hnodes ⊢
        rw [List.nil_append] at h ⊢
        by_cases hc' : Q ++ R = [] ∨ end_ < s.endseq_ m
        · -- the block is cut on both sides, or alone
          obtain rfl : Q = [] := by
            rcases hc' with hc' | hc'
            · exact (List.append_eq_nil_iff.mp hc').1
            · exact hright hc'.le
          rw [List.append_nil] at h ⊢
          obtain ⟨t, flags, h1, h2⟩ := h.merge_around hL hm hR hc hc' rqflags initcnt
          exact ⟨t, flags, ls, m, false, none, h1, h2⟩
        · rw [not_or, not_lt] at hc'
          have hlt : s.startseq_ m < start := by
            by_contra hge
            exact hm.2.2 ⟨not_lt.mp hge, hc'.2⟩
          rcases hc'.2.lt_or_eq with hlt' | heq
          · exact h.merge_left hm hlt' hQ hR hc'.1 rqflags initcnt
          · -- the segment ends where the block does
            obtain rfl := hright heq.ge
            rw [List.append_nil] at h ⊢
            obtain ⟨t, h1, h2⟩ := h.within hlt.le heq.ge hL hR hm.not_overlapped
              (mergeLeft_eq hlt.le)
            refine ⟨t, f, ls, m, false, none, ?_, h2⟩
            have h3 : Nodes (s.mergeLeft m start f) (L ++ [m] ++ R) ls :=
              h.nodes.congr rfl rfl rfl rfl rfl
            rw [ReassemblyQueue.merge, List.nil_append, hnodes.leftBlock, Option.bind_some,
              if_pos (.inr hlt)]
            dsimp only
            rw [merge', h3.rightBlock, Option.bind_some, if_neg (by
              rw [not_or]
              exact ⟨hc'.1, hc'.2.not_gt⟩)]
            dsimp only
            rw [show (s.mergeLeft m start f).endseq_ m = s.endseq_ m from rfl, if_pos heq.ge]
            exact h1
      · rw [not_or, not_lt] at hc
        have hgt : end_ < s.endseq_ m := by
          by_contra hge
          exact hm.2.2 ⟨hc.2, not_lt.mp hge⟩
        obtain rfl := hright hgt.le
        rw [List.append_nil] at h ⊢
        rcases hc.2.lt_or_eq with hlt | heq
        · exact h.merge_right hL hP hm hlt hc.1 rqflags initcnt
        · -- the segment starts where the block does
          obtain rfl := hleft heq.ge
          rw [List.append_nil] at hc hnodes ⊢
          rw [List.nil_append] at h ⊢
          obtain ⟨t, h1, h2⟩ := h.within (f := f) heq.ge hgt.le hL hR hm.not_overlapped
            (mergeRight_eq hgt.le)
          refine ⟨t, f, ls, m, false, none, ?_, h2⟩
          rw [ReassemblyQueue.merge, hnodes.leftBlock, Option.bind_some, if_neg (by
            rw [not_or]
            exact ⟨hc.1, hc.2.not_gt⟩)]
          dsimp only
          rw [merge', h.nodes.rightBlock, Option.bind_some, if_pos (.inr hgt)]
          dsimp only
          rw [show (s.mergeRight m end_ f).startseq_ m = s.startseq_ m from rfl, if_pos heq.ge]
          exact h1
    · have hlt : s.startseq_ m < start := by
        by_contra hge
        exact hm.2.2 ⟨not_lt.mp hge, (hx1.trans hx2).le⟩
      obtain rfl := hleft hlt.le
      obtain rfl : Q = [] := View.no_right (L := L ++ [m]) (R := R) (by simpa using h) hx3.le hQ
      rw [List.append_nil] at h ⊢
      exact View.merge_both (by simpa using h) hm (hM x (by simp)) rqflags initcnt

end Ns2.ReassemblyQueue
