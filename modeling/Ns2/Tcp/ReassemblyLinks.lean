import Ns2.Tcp.ReassemblyQueue

/-! The two lists of a reassembly queue run through the same live nodes, and every operation on
the links keeps this. -/

namespace Ns2.ReassemblyQueue

structure Links (s : ReassemblyQueue) (fs ls : List ℕ) : Prop where
  fifo : s.fifo.Rep fs
  lifo : s.lifo.Rep ls
  live : ∀ a ∈ fs, s.live a = true
  live_lifo : ∀ a ∈ ls, s.live a = true
  bound : ∀ a, s.live a = true → a < s.brk
  free_nodup : s.freelist_.Nodup
  free : ∀ a ∈ s.freelist_, s.live a = false ∧ a < s.brk

/-- The queue runs through `fs`, and the stack through the same nodes. -/
def Holds (s : ReassemblyQueue) (fs : List ℕ) : Prop := ∃ ls, Links s fs ls ∧ ls.Perm fs

/-- The same, with the order of the stack. -/
structure Nodes (s : ReassemblyQueue) (fs ls : List ℕ) : Prop where
  links : Links s fs ls
  perm : ls.Perm fs

variable {s s' : ReassemblyQueue} {fs ls L R : List ℕ} {a b n : ℕ}

/-- Both lists are a matter of the links and the memory only. -/
theorem Nodes.congr (h : Nodes s fs ls) (hf : s'.fifo = s.fifo) (hl : s'.lifo = s.lifo)
    (hv : s'.live = s.live) (hfree : s'.freelist_ = s.freelist_) (hb : s'.brk = s.brk) :
    Nodes s' fs ls := by
  obtain ⟨hls, hp⟩ := h
  refine ⟨⟨hf ▸ hls.fifo, hl ▸ hls.lifo, hv ▸ hls.live, hv ▸ hls.live_lifo, ?_,
    hfree ▸ hls.free_nodup, ?_⟩, hp⟩
  · rw [hv, hb]
    exact hls.bound
  · rw [hv, hb, hfree]
    exact hls.free

theorem Nodes.fifo (h : Nodes s fs ls) : s.fifo.Rep fs := h.links.fifo

theorem Nodes.live (h : Nodes s fs ls) : ∀ a ∈ fs, s.live a = true := h.links.live

theorem Nodes.nodup (h : Nodes s fs ls) : fs.Nodup := h.fifo.nodup

/-- No walk over the nodes takes more steps than there are addresses. -/
theorem Nodes.length_le (h : Nodes s fs ls) : fs.length ≤ s.brk :=
  h.links.fifo.length_le fun a ha => h.links.bound a (h.links.live a ha)

theorem deref_of_live {s : ReassemblyQueue} {p : Option ℕ} {a : ℕ} (hp : p = some a)
    (h : s.live a = true) : s.deref p = some a := by
  subst hp
  simp [deref, h]

theorem Nodes.deref_head (h : Nodes s (a :: R) ls) : s.deref s.fifo.head = some a :=
  deref_of_live h.fifo.head (h.live a (by simp))

theorem Nodes.deref_tail (h : Nodes s (L ++ [a]) ls) : s.deref s.fifo.tail = some a :=
  deref_of_live (h.fifo.tail.trans (by simp)) (h.live a (by simp))

theorem Nodes.deref_next (h : Nodes s (L ++ a :: b :: R) ls) : s.deref (s.fifo.next a) = some b :=
  deref_of_live h.fifo.next (h.live b (by simp))

theorem Nodes.deref_prev (h : Nodes s (L ++ a :: b :: R) ls) :
    s.deref (s.fifo.prev b) = some a := by
  have h' : s.fifo.Rep ((L ++ [a]) ++ b :: R) := by simpa using h.fifo
  exact deref_of_live (h'.prev.trans (by simp)) (h.live a (by simp))

/-! ### Unlinking -/

theorem Links.fremove (h : Links s (L ++ a :: R) ls) :
    ∃ fifo hint, s.fremove a = some { s with hint_ := hint, fifo := fifo } ∧
      Links { s with hint_ := hint, fifo := fifo } (L ++ R) ls := by
  obtain ⟨d, h1, h2⟩ := h.fifo.unlink h.live
  refine ⟨d, _, by rw [ReassemblyQueue.fremove, h1]; rfl, h2, h.lifo, fun x hx => h.live x ?_,
    h.live_lifo, h.bound, h.free_nodup, h.free⟩
  simp only [List.mem_append, List.mem_cons] at hx ⊢
  tauto

theorem Links.sremove (h : Links s fs (L ++ a :: R)) :
    ∃ lifo hint, s.sremove a = some { s with hint_ := hint, lifo := lifo } ∧
      Links { s with hint_ := hint, lifo := lifo } fs (L ++ R) := by
  obtain ⟨d, h1, h2⟩ := h.lifo.unlink h.live_lifo
  refine ⟨d, _, by rw [ReassemblyQueue.sremove, h1]; rfl, h.fifo, h2, h.live,
    fun x hx => h.live_lifo x ?_, h.bound, h.free_nodup, h.free⟩
  simp only [List.mem_append, List.mem_cons] at hx ⊢
  tauto

theorem Nodes.split (h : Nodes s (L ++ a :: R) ls) :
    ∃ A B, Links s (L ++ a :: R) (A ++ a :: B) ∧ ls.erase a = A ++ B ∧ (A ++ B).Perm (L ++ R) := by
  obtain ⟨hls, hp⟩ := h
  obtain ⟨A, B, -, rfl, herase⟩ :=
    List.exists_erase_eq (hp.mem_iff.mpr (by simp : a ∈ L ++ a :: R))
  exact ⟨A, B, hls, herase,
    (List.perm_cons a).mp ((List.perm_middle.symm.trans hp).trans List.perm_middle)⟩

theorem Nodes.unlink (h : Nodes s (L ++ a :: R) ls) :
    ∃ fifo lifo hint, s.unlink a = some { s with hint_ := hint, fifo := fifo, lifo := lifo } ∧
      Nodes { s with hint_ := hint, fifo := fifo, lifo := lifo } (L ++ R) (ls.erase a) := by
  obtain ⟨A, B, hls, herase, hp⟩ := h.split
  obtain ⟨lifo, hint, h1, h2⟩ := hls.sremove
  obtain ⟨fifo, hint', h3, h4⟩ := h2.fremove
  refine ⟨fifo, lifo, hint', ?_, herase ▸ h4, herase ▸ hp⟩
  rw [ReassemblyQueue.unlink, h1]
  exact h3

/-- The same in the other order. -/
theorem Nodes.unlink' (h : Nodes s (L ++ a :: R) ls) :
    ∃ fifo lifo hint, (s.fremove a).bind (·.sremove a) =
        some { s with hint_ := hint, fifo := fifo, lifo := lifo } ∧
      Nodes { s with hint_ := hint, fifo := fifo, lifo := lifo } (L ++ R) (ls.erase a) := by
  obtain ⟨A, B, hls, herase, hp⟩ := h.split
  obtain ⟨fifo, hint, h1, h2⟩ := hls.fremove
  obtain ⟨lifo, hint', h3, h4⟩ := h2.sremove
  refine ⟨fifo, lifo, hint', ?_, herase ▸ h4, herase ▸ hp⟩
  rw [h1]
  exact h3

theorem Nodes.delete (h : Nodes s fs ls) (ha : a ∉ fs) (hlive : s.live a = true) :
    Nodes (s.deleteseginfo a) fs ls := by
  obtain ⟨hls, hp⟩ := h
  have hne : ∀ x ∈ fs, x ≠ a := fun x hx he => ha (he ▸ hx)
  have hkeep : ∀ x, x ≠ a → (s.deleteseginfo a).live x = s.live x := fun x hx =>
    Function.update_of_ne hx _ _
  refine ⟨⟨hls.fifo, hls.lifo, fun x hx => ?_, fun x hx => ?_, fun x hx => ?_, ?_,
    fun x hx => ?_⟩, hp⟩
  · exact (hkeep x (hne x hx)).trans (hls.live x hx)
  · exact (hkeep x (hne x (hp.mem_iff.mp hx))).trans (hls.live_lifo x hx)
  · apply hls.bound
    by_cases he : x = a
    · exact he ▸ hlive
    · rwa [hkeep x he] at hx
  · refine List.nodup_cons.mpr ⟨fun hmem => ?_, hls.free_nodup⟩
    rw [(hls.free a hmem).1] at hlive
    cases hlive
  · rcases List.mem_cons.mp (show x ∈ a :: s.freelist_ from hx) with rfl | hx'
    · exact ⟨Function.update_self _ _ _, hls.bound x hlive⟩
    · have hxa : x ≠ a := by
        rintro rfl
        rw [(hls.free x hx').1] at hlive
        cases hlive
      exact ⟨(hkeep x hxa).trans (hls.free x hx').1, (hls.free x hx').2⟩

/-! ### Linking a new node -/

theorem Links.newseginfo {s : ReassemblyQueue} {fs ls : List ℕ} (h : Links s fs ls) :
    Links s.newseginfo.1 fs ls ∧ s.newseginfo.2 ∉ fs ∧ s.newseginfo.2 ∉ ls ∧
      s.newseginfo.1.live s.newseginfo.2 = true := by
  have hmain : ∀ n, s.live n = false → ∀ free brk, (∀ a ∈ free, a ∈ s.freelist_ ∧ a ≠ n) →
      free.Nodup → n < brk → s.brk ≤ brk →
      Links { s with freelist_ := free, live := Function.update s.live n true, brk := brk } fs ls ∧
        n ∉ fs ∧ n ∉ ls := by
    intro n hn free brk hfree hnd hlt hle
    have hne : ∀ x, s.live x = true → x ≠ n := by
      rintro x hx rfl
      rw [hn] at hx
      cases hx
    have hkeep : ∀ x, x ≠ n → Function.update s.live n true x = s.live x := fun x hx =>
      Function.update_of_ne hx _ _
    refine ⟨⟨h.fifo, h.lifo, fun x hx => ?_, fun x hx => ?_, fun x hx => ?_, hnd, fun x hx => ?_⟩,
      fun hm => hne n (h.live n hm) rfl, fun hm => hne n (h.live_lifo n hm) rfl⟩
    · exact (hkeep x (hne x (h.live x hx))).trans (h.live x hx)
    · exact (hkeep x (hne x (h.live_lifo x hx))).trans (h.live_lifo x hx)
    · change Function.update s.live n true x = true at hx
      show x < brk
      by_cases he : x = n
      · exact he ▸ hlt
      · rw [hkeep x he] at hx
        exact (h.bound x hx).trans_le hle
    · obtain ⟨hx1, hx2⟩ := hfree x hx
      exact ⟨(hkeep x hx2).trans (h.free x hx1).1, (h.free x hx1).2.trans_le hle⟩
  rw [ReassemblyQueue.newseginfo]
  split
  next n rest hf =>
    have hnd := h.free_nodup
    rw [hf, List.nodup_cons] at hnd
    have hn := h.free n (by simp [hf])
    obtain ⟨h1, h2, h3⟩ := hmain n hn.1 rest s.brk
      (fun a ha => ⟨by simp [hf, ha], fun he => hnd.1 (he ▸ ha)⟩) hnd.2 hn.2 le_rfl
    exact ⟨h1, h2, h3, Function.update_self _ _ _⟩
  next hf =>
    have hn : s.live s.brk = false := by
      rw [← Bool.not_eq_true]
      exact fun hlive => lt_irrefl _ (h.bound _ hlive)
    obtain ⟨h1, h2, h3⟩ := hmain s.brk hn s.freelist_ (s.brk + 1) (by simp [hf]) h.free_nodup
      (by omega) (by omega)
    exact ⟨h1, h2, h3, Function.update_self _ _ _⟩

/-- A new node between two parts of the queue, with all that it is given. -/
theorem Nodes.endfast (h : Nodes s (L ++ R) ls) (start end_ : ℤ) (tiflags rqflags : ℕ) (initcnt : ℤ)
    (needmerge : Bool) :
    ∃ n t, n ∉ L ++ R ∧ Nodes t (L ++ n :: R) (n :: ls) ∧
      t.startseq_ = Function.update s.startseq_ n start ∧
      t.endseq_ = Function.update s.endseq_ n end_ ∧
      t.pflags_ = Function.update s.pflags_ n tiflags ∧
      t.total_ = s.total_ + (end_ - start) ∧ t.rcv_nxt_ = s.rcv_nxt_ ∧
      s.endfast L.getLast? R.head? start end_ tiflags rqflags initcnt needmerge =
        if needmerge then t.coalesce L.getLast? n R.head?
        else some (t.advance start end_, tiflags) := by
  obtain ⟨hls, hp⟩ := h
  obtain ⟨h1, h2, h3, h4⟩ := hls.newseginfo
  have hlifo : s.newseginfo.1.lifo.Rep ([] ++ ls) := h1.lifo
  obtain ⟨lifo, hl1, hl2⟩ := hlifo.insert h3 h1.live_lifo h4
  obtain ⟨fifo, hf1, hf2⟩ := h1.fifo.insert h2 h1.live h4
  have hhead : s.newseginfo.1.lifo.head = ls.head? := h1.lifo.head
  have hfields : s.newseginfo.1.total_ = s.total_ ∧ s.newseginfo.1.rcv_nxt_ = s.rcv_nxt_ := by
    rw [ReassemblyQueue.newseginfo]
    split <;> exact ⟨rfl, rfl⟩
  generalize hr : s.newseginfo = r at *
  refine ⟨r.2, { r.1 with
    startseq_ := Function.update s.startseq_ r.2 start
    endseq_ := Function.update s.endseq_ r.2 end_
    pflags_ := Function.update s.pflags_ r.2 tiflags
    rqflags_ := Function.update s.rqflags_ r.2 rqflags
    cnt_ := Function.update s.cnt_ r.2 initcnt
    fifo := fifo
    lifo := lifo
    total_ := r.1.total_ + (end_ - start) }, h2, ⟨⟨hf2, hl2, ?_, ?_, h1.bound,
      h1.free_nodup, h1.free⟩, ?_⟩, rfl, rfl, rfl, by rw [hfields.1], hfields.2, ?_⟩
  · intro x hx
    rcases List.mem_cons.mp (List.perm_middle.mem_iff.mp hx) with rfl | hx
    · exact h4
    · exact h1.live x hx
  · intro x hx
    rcases List.mem_cons.mp hx with rfl | hx
    · exact h4
    · exact h1.live_lifo x hx
  · exact (hp.cons r.2).trans List.perm_middle.symm
  · have hpush : r.1.lifo.insert r.1.live none ls.head? r.2 = some lifo := hl1
    rw [ReassemblyQueue.endfast, hr]
    simp only [push, hhead, hpush, Option.map_some, Option.bind_some, hf1]

/-! ### Coalescing -/

theorem Nodes.ne (h : Nodes s (L ++ a :: R) ls) : ∀ x ∈ L ++ R, x ≠ a := by
  have hnd := h.nodup
  rw [List.nodup_middle, List.nodup_cons] at hnd
  exact fun x hx he => hnd.1 (he ▸ hx)

theorem Nodes.drop (h : Nodes s (L ++ R) ls) (ha : a ∉ L ++ R) (hlive : s.live a = true)
    (hf : s'.fifo = s.fifo) (hl : s'.lifo = s.lifo) (hv : s'.live = s.live)
    (hfree : s'.freelist_ = s.freelist_) (hb : s'.brk = s.brk) :
    Nodes (s'.deleteseginfo a) (L ++ R) ls :=
  (h.congr hf hl hv hfree hb).delete ha (hv ▸ hlive)

/-- What becomes of `rcv_nxt_` when it is compared with a block. -/
def adv (rcv start end_ : ℤ) : ℤ := if rcv ≥ start then end_ else rcv

/-- The new block joins the one before it, and not the one behind it. -/
theorem Nodes.coalesce_left (h : Nodes s ((L ++ [a]) ++ n :: R) ls)
    (hj : s.endseq_ a = s.startseq_ n) (hq : s.joined n R.head? = false) :
    ∃ t flags, s.coalesce (L ++ [a]).getLast? n R.head? = some (t, flags) ∧
      Nodes t (L ++ a :: R) (ls.erase n) ∧ t.startseq_ = s.startseq_ ∧
      t.endseq_ = Function.update s.endseq_ a (s.endseq_ n) ∧
      t.pflags_ = Function.update s.pflags_ a (s.pflags_ a ||| s.pflags_ n) ∧
      t.total_ = s.total_ ∧ t.rcv_nxt_ = adv s.rcv_nxt_ (s.startseq_ a) (s.endseq_ n) := by
  obtain ⟨fifo, lifo, hint, h1, h2⟩ := h.unlink
  have hne := h.ne
  have hp : s.joins (some a) n = true := by simp [joins, hj]
  have hun : s.coalesce (L ++ [a]).getLast? n R.head? = (s.unlink n).map fun s =>
      let flags := s.pflags_ a ||| s.pflags_ n
      let s := { s with
        endseq_ := Function.update s.endseq_ a (s.endseq_ n)
        cnt_ := Function.update s.cnt_ a (s.cnt_ a + s.cnt_ n)
        pflags_ := Function.update s.pflags_ a flags }
      let s := s.deleteseginfo n
      (s.advance (s.startseq_ a) (s.endseq_ a), flags) := by
    rw [List.getLast?_concat]
    unfold coalesce
    rw [hp, hq]
    cases R.head? <;> rfl
  rw [hun, h1]
  refine ⟨_, _, rfl, ?_, rfl, rfl, rfl, rfl, ?_⟩
  · have hkeep : Nodes _ ((L ++ [a]) ++ R) _ := h2
    rw [show L ++ a :: R = (L ++ [a]) ++ R by simp]
    refine Nodes.congr (hkeep.drop (fun hm => hne n hm rfl) (h.live n (by simp))
      rfl rfl rfl rfl rfl) rfl rfl rfl rfl rfl
  · exact congrArg (adv s.rcv_nxt_ (s.startseq_ a)) (Function.update_self _ _ _)

/-- The new block joins the one behind it, and not the one before it. -/
theorem Nodes.coalesce_right (h : Nodes s (L ++ n :: b :: R) ls)
    (hj : s.endseq_ n = s.startseq_ b) (hp : s.joins L.getLast? n = false) :
    ∃ t flags, s.coalesce L.getLast? n (b :: R).head? = some (t, flags) ∧
      Nodes t (L ++ b :: R) (ls.erase n) ∧
      t.startseq_ = Function.update s.startseq_ b (s.startseq_ n) ∧ t.endseq_ = s.endseq_ ∧
      t.pflags_ = Function.update s.pflags_ b (s.pflags_ b ||| s.pflags_ n) ∧
      t.total_ = s.total_ ∧ t.rcv_nxt_ = adv s.rcv_nxt_ (s.startseq_ n) (s.endseq_ b) := by
  obtain ⟨fifo, lifo, hint, h1, h2⟩ := h.unlink
  have hne := h.ne
  have hq : s.joined n (some b) = true := by simp [joined, hj]
  have hun : s.coalesce L.getLast? n (b :: R).head? = (s.unlink n).map fun s =>
      let flags := s.pflags_ b ||| s.pflags_ n
      let s := { s with
        startseq_ := Function.update s.startseq_ b (s.startseq_ n)
        cnt_ := Function.update s.cnt_ b (s.cnt_ b + s.cnt_ n)
        pflags_ := Function.update s.pflags_ b flags }
      let s := s.deleteseginfo n
      (s.advance (s.startseq_ b) (s.endseq_ b), flags) := by
    rw [List.head?_cons]
    unfold coalesce
    rw [hp, hq]
    cases L.getLast? <;> rfl
  rw [hun, h1]
  refine ⟨_, _, rfl, ?_, rfl, rfl, rfl, rfl, ?_⟩
  · have hkeep : Nodes _ (L ++ b :: R) _ := h2
    refine Nodes.congr (hkeep.drop (fun hm => hne n hm rfl) (h.live n (by simp))
      rfl rfl rfl rfl rfl) rfl rfl rfl rfl rfl
  · change adv s.rcv_nxt_ (Function.update s.startseq_ b (s.startseq_ n) b) (s.endseq_ b) = _
    rw [Function.update_self]

/-- The new block fills the hole between two blocks; the flags of the second one are gone. -/
theorem Nodes.coalesce_both (h : Nodes s ((L ++ [a]) ++ n :: b :: R) ls)
    (hp : s.endseq_ a = s.startseq_ n) (hq : s.endseq_ n = s.startseq_ b) :
    ∃ t flags, s.coalesce (L ++ [a]).getLast? n (b :: R).head? = some (t, flags) ∧
      Nodes t (L ++ a :: R) ((ls.erase n).erase b) ∧ t.startseq_ = s.startseq_ ∧
      t.endseq_ = Function.update s.endseq_ a (s.endseq_ b) ∧
      t.pflags_ = Function.update s.pflags_ a (s.pflags_ a ||| s.pflags_ n) ∧
      t.total_ = s.total_ ∧ t.rcv_nxt_ = adv s.rcv_nxt_ (s.startseq_ a) (s.endseq_ b) := by
  obtain ⟨fifo, lifo, hint, h1, h2⟩ := h.unlink
  obtain ⟨fifo', lifo', hint', h3, h4⟩ := h2.unlink
  have hne := h.ne
  have hne' := h2.ne
  have hpj : s.joins (some a) n = true := by simp [joins, hp]
  have hqj : s.joined n (some b) = true := by simp [joined, hq]
  rw [List.getLast?_concat, List.head?_cons]
  unfold coalesce
  rw [hpj, hqj]
  simp only [h1, Option.bind_some, h3, Option.map_some]
  refine ⟨_, _, rfl, ?_, rfl, rfl, rfl, rfl, ?_⟩
  · have hkeep : Nodes _ ((L ++ [a]) ++ R) _ := h4
    have hn : n ∉ (L ++ [a]) ++ R := fun hm => hne n (by simp at hm ⊢; tauto) rfl
    have hb : b ∉ (L ++ [a]) ++ R := fun hm => hne' b hm rfl
    have hnb : b ≠ n := hne b (by simp)
    rw [show L ++ a :: R = (L ++ [a]) ++ R by simp]
    have hd := hkeep.drop hn (h.live n (by simp)) rfl rfl rfl rfl rfl
    refine Nodes.congr (hd.drop hb ?_ rfl rfl rfl rfl rfl) rfl rfl rfl rfl rfl
    exact (Function.update_of_ne hnb _ _).trans (h.live b (by simp))
  · exact congrArg (adv s.rcv_nxt_ (s.startseq_ a)) (Function.update_self _ _ _)

/-! ### Clearing -/

/-- What the memory needs, whatever the links are. -/
def Memory (s : ReassemblyQueue) : Prop := Holds { s with fifo := .empty, lifo := .empty } []

theorem Memory.nodes (h : Memory s) (hf : s.fifo.head = none) (hf' : s.fifo.tail = none)
    (hl : s.lifo.head = none) (hl' : s.lifo.tail = none) : Nodes s [] [] := by
  obtain ⟨ls, hls, hp⟩ := h
  exact ⟨⟨.nil hf hf', .nil hl hl', by simp, by simp, hls.bound, hls.free_nodup, hls.free⟩, .nil⟩

theorem Memory.delete (h : Memory s) (hlive : s.live a = true) : Memory (s.deleteseginfo a) := by
  obtain ⟨ls, hls, hp⟩ := h
  obtain ⟨hd, hp⟩ := Nodes.delete ⟨hls, hp⟩ (by simp) hlive
  exact ⟨ls, hd, hp⟩

theorem clearLoop_spec {l : List ℕ} {fuel : ℕ} (hf : s.fifo.Fwd l)
    (hnd : l.Nodup) (hl : ∀ a ∈ l, s.live a = true) (hm : Memory s) (hfuel : l.length < fuel) :
    ∃ t, clearLoop fuel s = some t ∧ Memory t ∧ t.fifo.head = none ∧ t.fifo.tail = s.fifo.tail ∧
      t.lifo = s.lifo ∧ t.rcv_nxt_ = s.rcv_nxt_ := by
  induction l generalizing s fuel with
  | nil =>
    obtain ⟨fuel, rfl⟩ : ∃ k, fuel = k + 1 := ⟨fuel - 1, by omega⟩
    exact ⟨s, by rw [clearLoop, hf.head]; rfl, hm, hf.head, rfl, rfl, rfl⟩
  | cons a l ih =>
    obtain ⟨fuel, rfl⟩ : ∃ k, fuel = k + 1 := ⟨fuel - 1, by omega⟩
    rw [List.nodup_cons] at hnd
    have hne : ∀ x ∈ l, x ≠ a := fun x hx he => hnd.1 (he ▸ hx)
    have hstep : clearLoop (fuel + 1) s = clearLoop fuel
        ({ s with fifo := { s.fifo with head := s.fifo.next a } }.deleteseginfo a) := by
      rw [clearLoop, hf.head]
      exact if_pos (hl a (by simp))
    rw [hstep]
    apply ih
    · exact ⟨hf.next [] a l rfl, fun pre x post he => hf.next (a :: pre) x post (by simp [he])⟩
    · exact hnd.2
    · exact fun x hx =>
        (Function.update_of_ne (hne x hx) _ _).trans (hl x (List.mem_cons_of_mem a hx))
    · exact Memory.delete hm (hl a (by simp))
    · simpa using hfuel

theorem Nodes.clear (h : Nodes s fs ls) : ∃ t, s.clear = some t ∧ Nodes t [] [] ∧ t.total_ = 0 ∧
    t.rcv_nxt_ = s.rcv_nxt_ := by
  have hlen := h.length_le
  obtain ⟨t, h1, h2, h3, h4, h5, h6⟩ := @clearLoop_spec { s with
    fifo := { s.fifo with tail := none }
    lifo := { s.lifo with head := none, tail := none }
    hint_ := none } fs (s.brk + 1) ⟨h.fifo.fwd.head, h.fifo.fwd.next⟩ h.nodup h.live
    ⟨[], ⟨.nil rfl rfl, .nil rfl rfl, by simp, by simp, h.links.bound, h.links.free_nodup,
      h.links.free⟩, .nil⟩ (by omega)
  refine ⟨{ t with total_ := 0 }, by rw [ReassemblyQueue.clear, h1]; rfl, ?_, rfl, h6⟩
  exact (h2.nodes h3 h4 (h5 ▸ rfl) (h5 ▸ rfl)).congr rfl rfl rfl rfl rfl

end Ns2.ReassemblyQueue
