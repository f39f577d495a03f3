import Ns2.Imep.DestQueue

/-! Object blocks reach the upper layer at most once and in the order of their numbers, as long as
their sequence numbers tell the numbers apart. -/

namespace Ns2

open ByteRecords (Byte)

/-- The signed difference of two sequence numbers is that of the numbers, in a window. -/
theorem reg_eq {n l : ℕ} (h1 : l ≤ n + 128) (h2 : n ≤ l + 127) :
    (BitVec.ofNat 8 n - BitVec.ofNat 8 l).toInt = (n : ℤ) - l := by
  rw [BitVec.toInt_sub, BitVec.toInt_ofNat', BitVec.toInt_ofNat', Int.bmod_sub_bmod,
    Int.sub_bmod_bmod]
  exact Int.bmod_eq_of_le (by omega) (by omega)

theorem ofNat_mod (n : ℕ) : BitVec.ofNat 8 (n % 256) = BitVec.ofNat 8 n := by
  apply BitVec.eq_of_toNat_eq
  rw [BitVec.toNat_ofNat, BitVec.toNat_ofNat]
  omega

/-- What is known of one neighbour: the last sequence number, the queue, and the numbers of the
blocks that were handed up. The buffered ones are at least `k` ahead. -/
structure InOrder (src : ImepAddr) (k : ℕ) (last : Option Byte) (es : List Txent) (up : List ℕ) :
    Prop where
  increasing : up.Pairwise (· < ·)
  entries : ∀ t ∈ es, t.pkt_.saddr = src ∧ t.seqno_ = t.pkt_.number % 256 ∧ t.seqno_ ≠ 0
  sorted : es.Pairwise fun t u => t.pkt_.number < u.pkt_.number
  quiet : up = [] → es = [] ∧ last.getD 0 = 0
  window : ∀ l, up.getLast? = some l → last = some (BitVec.ofNat 8 l) ∧
    ∀ t ∈ es, l + k ≤ t.pkt_.number ∧ t.pkt_.number ≤ l + 127

namespace InOrder

variable {src : ImepAddr} {k : ℕ} {last : Option Byte} {es : List Txent} {up : List ℕ}

theorem nil (src : ImepAddr) : InOrder src k none [] [] :=
  ⟨.nil, by simp, .nil, fun _ => ⟨rfl, rfl⟩, fun _ h => nomatch h⟩

theorem mono {k' : ℕ} (h : InOrder src k last es up) (hk : k' ≤ k) : InOrder src k' last es up where
  increasing := h.increasing
  entries := h.entries
  sorted := h.sorted
  quiet := h.quiet
  window l hl := by
    obtain ⟨h1, h2⟩ := h.window l hl
    refine ⟨h1, fun t ht => ?_⟩
    obtain ⟨h3, h4⟩ := h2 t ht
    exact ⟨by omega, h4⟩

/-- The first block that is heard. -/
theorem first (n : ℕ) : InOrder src 1 (some (BitVec.ofNat 8 n)) [] [n] where
  increasing := List.pairwise_singleton _ _
  entries := by simp
  sorted := .nil
  quiet h := nomatch h
  window l hl := by
    obtain rfl := Option.some.inj hl
    exact ⟨rfl, by simp⟩

theorem handUp {l n : ℕ} {es' : List Txent} (h : InOrder src k last es up)
    (hl : up.getLast? = some l) (hn : l < n) (hsub : es'.Sublist es)
    (hnext : ∀ t ∈ es', n < t.pkt_.number) :
    InOrder src 1 (some (BitVec.ofNat 8 n)) es' (up ++ [n]) where
  increasing := by
    obtain ⟨front, rfl⟩ := List.getLast?_eq_some_iff.mp hl
    refine List.pairwise_append.mpr ⟨h.increasing, List.pairwise_singleton _ _, fun a ha b hb => ?_⟩
    obtain rfl := List.mem_singleton.mp hb
    rcases List.mem_append.mp ha with ha | ha
    · have := (List.pairwise_append.mp h.increasing).2.2 a ha l (List.mem_singleton_self l)
      omega
    · obtain rfl := List.mem_singleton.mp ha
      exact hn
  entries t ht := h.entries t (hsub.subset ht)
  sorted := h.sorted.sublist hsub
  quiet hnil := absurd hnil (by simp)
  window l' hl' := by
    obtain rfl : n = l' := by
      rw [List.getLast?_concat] at hl'
      exact Option.some.inj hl'
    refine ⟨rfl, fun t ht => ?_⟩
    have := (h.window l hl).2 t (hsub.subset ht)
    have := hnext t ht
    omega

/-- The first buffered block is handed up. -/
theorem handUp_head {t : Txent} (h : InOrder src 1 last (t :: es) up) :
    InOrder src 1 (some (BitVec.ofNat 8 t.seqno_)) es (up ++ [t.pkt_.number]) := by
  have hseq := (h.entries t (by simp)).2.1
  have hcast : BitVec.ofNat 8 t.seqno_ = BitVec.ofNat 8 t.pkt_.number := by rw [hseq, ofNat_mod]
  cases hl : up.getLast? with
  | none =>
    have := (h.quiet (List.getLast?_eq_none_iff.mp hl)).1
    cases this
  | some l =>
    have := ((h.window l hl).2 t (by simp)).1
    rw [hcast]
    exact h.handUp hl (by omega) (List.sublist_cons_self t es)
      fun u hu => List.rel_of_pairwise_cons h.sorted hu

/-- A buffered block with the next sequence number is the first one. -/
theorem find_next {l : Byte} {t : Txent} (h : InOrder src 1 (some l) es up)
    (hfind : (es.find? fun t => t.seqno_ = l.toNat + 1) = some t) :
    ∃ es', es = t :: es' ∧ (es.eraseP fun t => t.seqno_ = l.toNat + 1) = es' ∧
      BitVec.ofNat 8 t.seqno_ = l + 1 := by
  have hmem := List.mem_of_find?_eq_some hfind
  have hseq : t.seqno_ = l.toNat + 1 := by simpa using List.find?_some hfind
  cases hl : up.getLast? with
  | none =>
    have := (h.quiet (List.getLast?_eq_none_iff.mp hl)).1
    rw [this] at hmem
    cases hmem
  | some n =>
    obtain ⟨h1, h2⟩ := h.window n hl
    obtain rfl := Option.some.inj h1
    have hmod := (h.entries t hmem).2.1
    rw [BitVec.toNat_ofNat] at hseq hfind ⊢
    obtain ⟨h3, h4⟩ := h2 t hmem
    have hnumber : t.pkt_.number = n + 1 := by omega
    have hcast : BitVec.ofNat 8 t.seqno_ = BitVec.ofNat 8 n + 1 := by
      apply BitVec.eq_of_toNat_eq
      rw [BitVec.toNat_add, BitVec.toNat_ofNat, BitVec.toNat_ofNat, hseq]
      change (n % 2 ^ 8 + 1) % 2 ^ 8 = (n % 2 ^ 8 + 1) % 2 ^ 8
      rfl
    cases es with
    | nil => cases hmem
    | cons u us =>
      rcases List.mem_cons.mp hmem with rfl | hus
      · exact ⟨us, rfl, by rw [List.eraseP_cons_of_pos (by simpa using hseq)], hcast⟩
      · have := List.rel_of_pairwise_cons h.sorted hus
        have := (h2 u (by simp)).1
        omega

/-- Without the next sequence number in the queue, the next block is not buffered. -/
theorem none_next {l : Byte} (h : InOrder src 1 (some l) es up)
    (hfind : (es.find? fun t => t.seqno_ = l.toNat + 1) = none) : InOrder src 2 (some l) es up where
  increasing := h.increasing
  entries := h.entries
  sorted := h.sorted
  quiet := h.quiet
  window n hn := by
    obtain ⟨h1, h2⟩ := h.window n hn
    refine ⟨h1, fun t ht => ?_⟩
    obtain ⟨h3, h4⟩ := h2 t ht
    obtain ⟨-, h5, h6⟩ := h.entries t ht
    obtain rfl := Option.some.inj h1
    have hne : t.seqno_ ≠ (BitVec.ofNat 8 n).toNat + 1 := by
      simpa using List.find?_eq_none.mp hfind t ht
    rw [BitVec.toNat_ofNat] at hne
    omega

theorem insertEntry_mem {t u : Txent} : u ∈ Dstent.insertEntry t es ↔ u = t ∨ u ∈ es := by
  induction es with
  | nil => simp [Dstent.insertEntry]
  | cons v es ih =>
    rw [Dstent.insertEntry]
    split_ifs
    · rw [List.mem_cons]
    · rw [List.mem_cons, ih, List.mem_cons]
      tauto

/-- A block ahead of the next one is buffered in its place. -/
theorem insert {l n : ℕ} {t : Txent} (h : InOrder src 2 last es up) (hl : up.getLast? = some l)
    (hsrc : t.pkt_.saddr = src) (hnumber : t.pkt_.number = n) (hseq : t.seqno_ = n % 256)
    (hzero : n % 256 ≠ 0) (hlo : l + 2 ≤ n) (hhi : n ≤ l + 127)
    (hnew : (es.find? fun u => u.seqno_ = t.seqno_) = none) :
    InOrder src 2 last (Dstent.insertEntry t es) up where
  increasing := h.increasing
  entries u hu := by
    rcases insertEntry_mem.mp hu with rfl | hu
    · exact ⟨hsrc, hnumber ▸ hseq, hseq ▸ hzero⟩
    · exact h.entries u hu
  sorted := by
    have hne : ∀ u ∈ es, u.pkt_.number ≠ n := fun u hu he => by
      have hseq' := (h.entries u hu).2.1
      rw [he, ← hseq] at hseq'
      exact absurd hseq' (by simpa using List.find?_eq_none.mp hnew u hu)
    have hwindow := (h.window l hl).2
    have hentries := h.entries
    have hsorted := h.sorted
    clear hnew h
    induction es with
    | nil => exact List.pairwise_singleton _ _
    | cons v es ih =>
      obtain ⟨hv, hrest⟩ := List.pairwise_cons.mp hsorted
      have hvw := hwindow v (by simp)
      have hgt : seqGt (BitVec.ofNat 8 v.seqno_) (BitVec.ofNat 8 t.seqno_) ↔
          n < v.pkt_.number := by
        rw [seqGt, (hentries v (by simp)).2.1, hseq, ofNat_mod, ofNat_mod, reg_eq (by omega) (by omega)]
        omega
      rw [Dstent.insertEntry]
      split_ifs with hc
      · refine List.pairwise_cons.mpr ⟨fun u hu => ?_, hsorted⟩
        have := hgt.mp hc
        rcases List.mem_cons.mp hu with rfl | hu
        · omega
        · have := hv u hu
          omega
      · refine List.pairwise_cons.mpr ⟨fun u hu => ?_, ih (fun u hu => hne u (by simp [hu]))
          (fun u hu => hwindow u (by simp [hu])) (fun u hu => hentries u (by simp [hu])) hrest⟩
        rcases insertEntry_mem.mp hu with rfl | hu
        · have := hne v (by simp)
          have := mt hgt.mpr hc
          omega
        · exact hv u hu
  quiet hnil := by
    rw [hnil] at hl
    cases hl
  window l' hl' := by
    obtain rfl := Option.some.inj (hl.symm.trans hl')
    obtain ⟨h1, h2⟩ := h.window l hl
    refine ⟨h1, fun u hu => ?_⟩
    rcases insertEntry_mem.mp hu with rfl | hu
    · omega
    · exact h2 u hu

end InOrder

namespace DstQueue

/-- The buffered packets of one neighbour. -/
def entries (q : DstQueue) (src : ImepAddr) : List Txent := (findEntry q src).elim [] Dstent.txents

def Distinct (q : DstQueue) : Prop := (q.map Dstent.ipaddr_).Nodup

theorem findEntry_ipaddr {q : DstQueue} {src : ImepAddr} {d : Dstent}
    (h : findEntry q src = some d) : d.ipaddr_ = src := by simpa using List.find?_some h

theorem setEntry_ipaddrs (d : Dstent) (q : DstQueue) :
    (setEntry d q).map Dstent.ipaddr_ = q.map Dstent.ipaddr_ := by
  induction q with
  | nil => rfl
  | cons e q ih =>
    rw [setEntry]
    split_ifs with h
    · rw [List.map_cons, List.map_cons, h]
    · rw [List.map_cons, List.map_cons, ih]

theorem entries_cons (d : Dstent) (q : DstQueue) (x : ImepAddr) :
    entries (d :: q) x = if d.ipaddr_ = x then d.txents else entries q x := by
  unfold entries findEntry
  by_cases h : d.ipaddr_ = x
  · rw [List.find?_cons_of_pos (by simpa using h), if_pos h]
    rfl
  · rw [List.find?_cons_of_neg (by simpa using h), if_neg h]

theorem entries_setEntry {q : DstQueue} {d e : Dstent} (h : findEntry q d.ipaddr_ = some e)
    (x : ImepAddr) :
    entries (setEntry d q) x = if x = d.ipaddr_ then d.txents else entries q x := by
  induction q with
  | nil => cases h
  | cons c q ih =>
    rw [setEntry]
    by_cases hc : c.ipaddr_ = d.ipaddr_
    · rw [if_pos hc, entries_cons, entries_cons, hc]
      by_cases hx : x = d.ipaddr_
      · rw [if_pos hx.symm, if_pos hx]
      · rw [if_neg (Ne.symm hx), if_neg hx, if_neg (Ne.symm hx)]
    · rw [if_neg hc, entries_cons, entries_cons]
      rw [findEntry, List.find?_cons_of_neg (by simpa using hc)] at h
      by_cases hx : c.ipaddr_ = x
      · rw [if_pos hx, if_pos hx, if_neg (fun he => hc (hx.trans he))]
      · rw [if_neg hx, if_neg hx, ih h]

theorem entries_getPacket {q q' : DstQueue} {src : ImepAddr} {s : ℕ} {p : ObjectPacket}
    (h : getPacket q src s = some (p, q')) :
    (∃ t, (entries q src).find? (fun t => t.seqno_ = s) = some t ∧ t.pkt_ = p) ∧
      entries q' src = (entries q src).eraseP (fun t => t.seqno_ = s) ∧
      (∀ x, x ≠ src → entries q' x = entries q x) ∧
      q'.map Dstent.ipaddr_ = q.map Dstent.ipaddr_ := by
  obtain ⟨d, hd, h⟩ := Option.bind_eq_some_iff.mp h
  obtain ⟨t, ht, h⟩ := Option.map_eq_some_iff.mp h
  obtain ⟨rfl, rfl⟩ := Prod.mk.inj h
  have haddr := findEntry_ipaddr hd
  have hentries : entries q src = d.txents := by rw [entries, hd, Option.elim_some]
  have hset := entries_setEntry (q := q) (d := { d with
    txents := d.txents.eraseP fun t => t.seqno_ = s }) (e := d) (haddr ▸ hd)
  refine ⟨⟨t, hentries ▸ ht, rfl⟩, ?_, fun x hx => ?_, setEntry_ipaddrs _ q⟩
  · rw [hset, if_pos haddr.symm, hentries]
  · rw [hset, if_neg (fun he => hx (he.trans haddr))]

theorem getPacket_none {q : DstQueue} {src : ImepAddr} {s : ℕ} (h : getPacket q src s = none) :
    (entries q src).find? (fun t => t.seqno_ = s) = none := by
  unfold entries
  cases hd : findEntry q src with
  | none => rfl
  | some d =>
    rw [getPacket, hd, Option.bind_some] at h
    exact Option.map_eq_none_iff.mp h

theorem entries_addEntry (q : DstQueue) (src : ImepAddr) (e : ℚ≥0) (s : ℕ) (p : ObjectPacket)
    (x : ImepAddr) : entries (addEntry q src e s p) x = if x = src then
      (Dstent.addEntry ⟨src, entries q src, illegalSeq⟩ e s p).txents else entries q x := by
  cases hd : findEntry q src with
  | none =>
    have hnew : addEntry q src e s p = Dstent.addEntry ⟨src, [], illegalSeq⟩ e s p :: q := by
      rw [addEntry, hd]
    have haddr : (Dstent.addEntry ⟨src, [], illegalSeq⟩ e s p).ipaddr_ = src := rfl
    have hnil : entries q src = [] := by rw [entries, hd, Option.elim_none]
    rw [hnew, entries_cons, haddr, hnil]
    by_cases hx : x = src
    · rw [if_pos hx.symm, if_pos hx]
    · rw [if_neg (Ne.symm hx), if_neg hx]
  | some d =>
    have haddr := findEntry_ipaddr hd
    have hold : addEntry q src e s p = setEntry (d.addEntry e s p) q := by rw [addEntry, hd]
    have hsame : (d.addEntry e s p).ipaddr_ = src := by
      rw [Dstent.addEntry]
      split_ifs <;> exact haddr
    have hentries : entries q src = d.txents := by rw [entries, hd, Option.elim_some]
    rw [hold, entries_setEntry (e := d) (by rw [hsame, hd]), hsame, hentries]
    congr 1
    unfold Dstent.addEntry
    dsimp only
    split_ifs <;> rfl

theorem addEntry_distinct {q : DstQueue} (h : q.Distinct) (src : ImepAddr) (e : ℚ≥0) (s : ℕ)
    (p : ObjectPacket) : (addEntry q src e s p).Distinct := by
  unfold addEntry
  split
  · rw [Distinct, setEntry_ipaddrs]
    exact h
  · next hd =>
    rw [Distinct, List.map_cons, List.nodup_cons]
    refine ⟨fun hmem => ?_, h⟩
    obtain ⟨d, hmem, haddr⟩ := List.mem_map.mp hmem
    have hsrc : d.ipaddr_ = src := haddr
    exact List.find?_eq_none.mp hd d hmem (by simpa using hsrc)

/-- What `getNextPacket` does to the queues: it takes the first packet of one neighbour, or none. -/
structure Takes (q q' : DstQueue) (r : Option Txent) : Prop where
  ipaddrs : q'.map Dstent.ipaddr_ = q.map Dstent.ipaddr_
  taken : ∀ t, r = some t → ∃ src, entries q src = t :: entries q' src ∧
    ∀ x, x ≠ src → entries q' x = entries q x
  untouched : r = none → ∀ x, entries q' x = entries q x

theorem Takes.skip {d : Dstent} {q q' : DstQueue} {r : Option Txent} (h : Takes q q' r)
    (hd : d.ipaddr_ ∉ q.map Dstent.ipaddr_) (mark : ℕ) :
    Takes (d :: q) ({ d with seqno_ := mark } :: q') r where
  ipaddrs := by rw [List.map_cons, List.map_cons, h.ipaddrs]
  taken t ht := by
    obtain ⟨src, h1, h2⟩ := h.taken t ht
    have hne : d.ipaddr_ ≠ src := fun he => by
      have hnil : entries q src = [] := by
        have hfind : findEntry q src = none := by
          refine List.find?_eq_none.mpr fun e hmem heq => hd ?_
          rw [he, ← (by simpa using heq : e.ipaddr_ = src)]
          exact List.mem_map_of_mem hmem
        rw [entries, hfind, Option.elim_none]
      rw [hnil] at h1
      cases h1
    refine ⟨src, ?_, fun x hx => ?_⟩
    · rw [entries_cons, if_neg hne, h1, entries_cons, if_neg hne]
    · rw [entries_cons, entries_cons, h2 x hx]
  untouched hr x := by rw [entries_cons, entries_cons, h.untouched hr x]

theorem Takes.head (d : Dstent) (q : DstQueue) {t : Txent} {ts : List Txent}
    (hd : d.txents = t :: ts) (mark : ℕ) :
    Takes (d :: q) ({ d with seqno_ := mark, txents := ts } :: q) (some t) where
  ipaddrs := rfl
  taken u hu := by
    obtain rfl := Option.some.inj hu
    refine ⟨d.ipaddr_, ?_, fun x hx => ?_⟩
    · rw [entries_cons, if_pos rfl, entries_cons, if_pos rfl, hd]
    · rw [entries_cons, if_neg (Ne.symm hx), entries_cons, if_neg (Ne.symm hx)]
  untouched hr := nomatch hr

theorem getNextPacket_takes {now : ℚ≥0} {q : DstQueue} (h : q.Distinct) :
    Takes q (getNextPacket now q).1 (getNextPacket now q).2 := by
  induction q with
  | nil => exact ⟨rfl, fun _ ht => (nomatch ht), fun _ _ => rfl⟩
  | cons d q ih =>
    obtain ⟨hd, hq⟩ := List.nodup_cons.mp h
    rw [getNextPacket]
    split
    · exact (ih hq).skip hd _
    · next t ts hts =>
      split_ifs
      · exact (ih hq).skip hd d.seqno_
      · exact .head d q hts _
      · exact (ih hq).skip hd _
      · exact .head d q hts _
      · exact .head d q hts _

end DstQueue

namespace ImepNode

/-- The numbers of the blocks of `src` that were handed up. -/
def numbers (w : ImepNode) (src : ImepAddr) : List ℕ :=
  (w.delivered.filter fun p => p.saddr = src).map ObjectPacket.number

def Holds (w : ImepNode) (k : ℕ) (src : ImepAddr) : Prop :=
  InOrder src k (w.links src) (w.incomingQ.entries src) (w.numbers src)

/-- Every neighbour is in order; the next block of `src` may be in the queue. -/
structure Ordered (w : ImepNode) (src : Option ImepAddr) : Prop where
  distinct : w.incomingQ.Distinct
  holds : ∀ x, some x ≠ src → w.Holds 2 x
  next : ∀ x, some x = src → w.Holds 1 x

theorem handUp_numbers {w : ImepNode} {src : ImepAddr} {seq : Byte} {p : ObjectPacket}
    (hp : p.saddr = src) (x : ImepAddr) :
    (w.handUp src seq p).numbers x = if x = src then w.numbers x ++ [p.number] else w.numbers x := by
  unfold numbers handUp
  rw [List.filter_append, List.map_append]
  by_cases hx : x = src
  · rw [if_pos hx, List.filter_cons_of_pos (by simp [hp, hx])]
    rfl
  · rw [if_neg hx, List.filter_cons_of_neg (by simpa [hp] using Ne.symm hx)]
    exact List.append_nil _

/-- One block of `src` is handed up, and the rest of the node stays as it is. -/
theorem Ordered.handUp {w w' : ImepNode} {src : ImepAddr} {o : Option ImepAddr} {seq : Byte}
    {p : ObjectPacket} (h : w.Ordered o) (hw : w'.delivered = w.delivered)
    (hlinks : ∀ x, x ≠ src → w'.links x = w.links x)
    (hq : w'.incomingQ.map Dstent.ipaddr_ = w.incomingQ.map Dstent.ipaddr_)
    (hother : ∀ x, x ≠ src → w'.incomingQ.entries x = w.incomingQ.entries x) (hp : p.saddr = src)
    (ho : ∀ x, some x = o → x = src)
    (hsrc : InOrder src 1 (some seq) (w'.incomingQ.entries src) (w.numbers src ++ [p.number])) :
    (w'.handUp src seq p).Ordered (some src) where
  distinct := by
    rw [DstQueue.Distinct]
    exact hq ▸ h.distinct
  holds x hx := by
    have hne : x ≠ src := fun he => hx (congrArg some he)
    have := h.holds x fun he => hne (ho x he)
    unfold Holds at this ⊢
    rw [handUp_numbers hp, if_neg hne]
    have hnumbers : w'.numbers x = w.numbers x := by rw [numbers, hw, numbers]
    have hlink : (w'.handUp src seq p).links x = w.links x := by
      rw [← hlinks x hne]
      exact Function.update_of_ne hne _ _
    rw [hnumbers, hlink]
    exact (hother x hne).symm ▸ this
  next x hx := by
    obtain rfl := Option.some.inj hx
    unfold Holds
    rw [handUp_numbers hp, if_pos rfl]
    have hnumbers : w'.numbers x = w.numbers x := by rw [numbers, hw, numbers]
    have hlink : (w'.handUp x seq p).links x = some seq := Function.update_self _ _ _
    rw [hnumbers, hlink]
    exact hsrc

theorem Ordered.rest {w : ImepNode} {src : ImepAddr} (h : w.Ordered (some src))
    (hsrc : w.Holds 2 src) : w.Ordered none where
  distinct := h.distinct
  holds x _ := by
    by_cases hx : x = src
    · exact hx ▸ hsrc
    · exact h.holds x fun he => hx (Option.some.inj he)
  next x hx := nomatch hx

theorem chain_ordered {src : ImepAddr} {fuel : ℕ} {w : ImepNode} (h : w.Ordered (some src))
    (hfuel : (w.incomingQ.entries src).length < fuel) : (chain src fuel w).Ordered none := by
  induction fuel generalizing w with
  | zero => omega
  | succ fuel ih =>
    have hsrc := h.next src rfl
    unfold Holds at hsrc
    rw [chain]
    split
    · next hlast =>
      rw [hlast] at hsrc
      have hquiet : w.numbers src = [] := by
        by_contra hne
        have := (hsrc.window _ (List.getLast?_eq_some_getLast hne)).1
        cases this
      refine h.rest ?_
      unfold Holds
      rw [hlast]
      refine ⟨hsrc.increasing, hsrc.entries, hsrc.sorted, hsrc.quiet, fun l hl => ?_⟩
      rw [hquiet] at hl
      cases hl
    · next last hlast =>
      rw [hlast] at hsrc
      split
      · next hnone =>
        refine h.rest ?_
        unfold Holds
        rw [hlast]
        exact hsrc.none_next (DstQueue.getPacket_none hnone)
      · next p q hsome =>
        obtain ⟨⟨t, hfind, rfl⟩, herase, hother, haddrs⟩ := DstQueue.entries_getPacket hsome
        obtain ⟨es', hes, herase', hseq⟩ := hsrc.find_next hfind
        rw [herase'] at herase
        rw [hes] at hsrc hfuel
        have hhead := hsrc.handUp_head
        rw [hseq, ← herase] at hhead
        have haddr := (hsrc.entries t (by simp)).1
        refine ih (h.handUp rfl (fun _ _ => rfl) haddrs hother haddr (fun x hx => Option.some.inj hx) hhead) ?_
        rw [List.length_cons] at hfuel
        change (DstQueue.entries q src).length < fuel
        rw [herase]
        omega

theorem entries_length_le (q : DstQueue) (src : ImepAddr) : (q.entries src).length ≤ q.size := by
  induction q with
  | nil => exact Nat.zero_le _
  | cons d q ih =>
    rw [DstQueue.entries_cons, DstQueue.size, List.map_cons, List.sum_cons]
    unfold DstQueue.size at ih
    split_ifs <;> omega

/-- What tells the number of a block that arrives from the one that was last handed up. -/
def Timely (w : ImepNode) (p : ObjectPacket) : Prop :=
  ∀ l ∈ (w.numbers p.saddr).getLast?,
    l ≤ p.number + 128 ∧ p.number ≤ l + 127 ∧ (l % 256 = 0 → p.number = l + 1) ∧
      (p.number % 256 = 0 → p.number ≤ l + 1)

theorem Ordered.newLink {w : ImepNode} (h : w.Ordered none) (src : ImepAddr) :
    (w.newLink src).Ordered none where
  distinct := h.distinct
  holds x hx := by
    have := h.holds x hx
    unfold Holds at this ⊢
    by_cases he : x = src
    · subst he
      have hlink : (w.newLink x).links x = some ((w.links x).getD 0) := Function.update_self _ _ _
      rw [hlink]
      refine ⟨this.increasing, this.entries, this.sorted, this.quiet, fun l hl => ?_⟩
      obtain ⟨h1, h2⟩ := this.window l hl
      exact ⟨by rw [h1, Option.getD_some], h2⟩
    · have hlink : (w.newLink src).links x = w.links x := Function.update_of_ne he _ _
      rw [hlink]
      exact this
  next x hx := nomatch hx

/-- A block that is not the first one is told from the last one by its sequence number. -/
theorem last_eq {w : ImepNode} {p : ObjectPacket} {l : ℕ} (h : w.Holds 2 p.saddr)
    (hp : w.Timely p) (hl : (w.numbers p.saddr).getLast? = some l) :
    (if (w.links p.saddr).getD 0 = 0 then p.ob_sequence - 1 else (w.links p.saddr).getD 0) =
      BitVec.ofNat 8 l := by
  have hlast := (h.window l hl).1
  rw [hlast, Option.getD_some]
  split_ifs with hzero
  · have hmod : l % 256 = 0 := by simpa using congrArg BitVec.toNat hzero
    rw [ObjectPacket.ob_sequence, (hp l hl).2.2.1 hmod]
    apply BitVec.eq_of_toNat_eq
    rw [BitVec.toNat_sub, BitVec.toNat_ofNat, BitVec.toNat_ofNat]
    change (2 ^ 8 - 1 + (l + 1) % 2 ^ 8) % 2 ^ 8 = _
    omega
  · rfl

theorem recvIncoming_ordered {w w' : ImepNode} {now : ℚ≥0} {p : ObjectPacket}
    (h : w.Ordered none) (hp : w.Timely p) (hrun : w.recvIncoming now p = some w') :
    w'.Ordered none := by
  have hsrc := h.holds p.saddr (by simp)
  have hnew := h.newLink p.saddr
  have hlink : (w.newLink p.saddr).links p.saddr = some ((w.links p.saddr).getD 0) :=
    Function.update_self _ _ _
  rw [recvIncoming, imepObjectInput, hlink, Option.map_some] at hrun
  dsimp only at hrun
  have hfuel : ∀ w : ImepNode, (w.incomingQ.entries p.saddr).length < w.incomingQ.size + 1 :=
    fun w => Nat.lt_succ_of_le (entries_length_le _ _)
  have hother : ∀ (last : Byte) (x : ImepAddr), x ≠ p.saddr →
      Function.update (w.newLink p.saddr).links p.saddr (some last) x =
        (w.newLink p.saddr).links x := fun last x hx => Function.update_of_ne hx _ _
  cases hl : (w.numbers p.saddr).getLast? with
  | none =>
    have hnil := List.getLast?_eq_none_iff.mp hl
    obtain ⟨hes, hzero⟩ := hsrc.quiet hnil
    have hreg : (p.ob_sequence - (p.ob_sequence - 1)).toInt = 1 := by
      rw [sub_sub_cancel]
      rfl
    rw [if_pos hzero, hreg, if_neg (by omega), if_pos rfl] at hrun
    obtain rfl := Option.some.inj hrun
    refine chain_ordered (hnew.handUp rfl (hother _) rfl (fun _ _ => rfl) rfl
      (fun x hx => nomatch hx) ?_) (hfuel _)
    change InOrder _ 1 _ (w.incomingQ.entries p.saddr) (w.numbers p.saddr ++ [p.number])
    rw [hes, hnil]
    exact .first p.number
  | some l =>
    obtain ⟨h1, h2, -, h4⟩ := hp l hl
    have hlinks : Function.update (w.newLink p.saddr).links p.saddr (some (BitVec.ofNat 8 l)) =
        (w.newLink p.saddr).links := by
      have := (hsrc.window l hl).1
      rw [this, Option.getD_some] at hlink
      rw [← hlink, Function.update_eq_self]
    rw [last_eq hsrc hp hl, ObjectPacket.ob_sequence, reg_eq h1 h2] at hrun
    obtain rfl := Option.some.inj hrun
    have hnew' := hnew.holds p.saddr (by simp)
    split_ifs with hle hone
    · rw [hlinks]
      exact hnew
    · have hnext : p.number = l + 1 := by omega
      refine chain_ordered (hnew.handUp rfl (hother _) rfl (fun _ _ => rfl) rfl
        (fun x hx => nomatch hx) ?_) (hfuel _)
      refine hnew'.handUp hl (by omega) (List.Sublist.refl _) fun t ht => ?_
      have := ((hnew'.window l hl).2 t ht).1
      omega
    · rw [hlinks]
      refine @chain_ordered p.saddr _ _ ⟨?_, fun x hx => ?_, fun x hx => ?_⟩ (hfuel _)
      · exact DstQueue.addEntry_distinct hnew.distinct _ _ _ _
      · have := hnew.holds x (by simp)
        unfold Holds at this ⊢
        dsimp only
        rw [DstQueue.entries_addEntry, if_neg fun he => hx (congrArg some he)]
        exact this
      · obtain rfl := Option.some.inj hx
        unfold Holds at hnew' ⊢
        dsimp only
        rw [DstQueue.entries_addEntry, if_pos rfl]
        refine InOrder.mono ?_ (by omega : 1 ≤ 2)
        rw [Dstent.addEntry]
        split_ifs with hthere
        · exact hnew'
        · have hmod : (BitVec.ofNat 8 p.number).toNat = p.number % 256 := BitVec.toNat_ofNat _ _
          refine hnew'.insert (n := p.number) hl rfl rfl hmod (fun he => ?_) (by omega) h2 ?_
          · have := h4 he
            omega
          · exact Option.not_isSome_iff_eq_none.mp hthere

theorem incomingLoop_ordered {now : ℚ≥0} {fuel : ℕ} {w : ImepNode} (h : w.Ordered none) :
    (incomingLoop now fuel w).Ordered none := by
  induction fuel generalizing w with
  | zero => exact h
  | succ fuel ih =>
    have htakes := @DstQueue.getNextPacket_takes now _ h.distinct
    rw [incomingLoop]
    split
    · next q hq =>
      rw [hq] at htakes
      refine ⟨?_, fun x hx => ?_, fun x hx => nomatch hx⟩
      · rw [DstQueue.Distinct]
        exact htakes.ipaddrs ▸ h.distinct
      · have hsame : DstQueue.entries q x = w.incomingQ.entries x := htakes.untouched rfl x
        have := h.holds x hx
        unfold Holds at this ⊢
        exact hsame.symm ▸ this
    · next q t hq =>
      rw [hq] at htakes
      obtain ⟨src, hentries, hother⟩ := htakes.taken t rfl
      have hsrc := (h.holds src (by simp)).mono (by omega : 1 ≤ 2)
      rw [hentries] at hsrc
      have haddr := (hsrc.entries t (by simp)).1
      subst haddr
      exact ih (chain_ordered (h.handUp rfl (fun _ _ => rfl) htakes.ipaddrs hother rfl
        (fun x hx => nomatch hx) hsrc.handUp_head) (Nat.lt_succ_of_le (entries_length_le _ _)))

end ImepNode

namespace ImepNet

/-- A block has been handed up, or a later one has. -/
def Passed (w : ImepNet) (src : ImepAddr) (n : ℕ) : Prop := ∃ m ∈ w.node.numbers src, n ≤ m

/-- What the upper layer gets of a neighbour is in the order of sending, without repetition, and no
buffered block has nothing left to wait for. -/
structure Delivers (w : ImepNet) (src : ImepAddr) : Prop where
  once : (w.node.numbers src).Pairwise (· < ·)
  prompt : ∀ t ∈ w.node.incomingQ.entries src, ¬∀ n, n < t.pkt_.number → w.Passed src n

def Timely (w : ImepNet) : ImepOp → Prop
  | .recv src number _ => w.node.Timely ⟨src, number⟩
  | _ => True

instance (w : ImepNet) : (op : ImepOp) → Decidable (w.Timely op)
  | .send _ => .isTrue trivial
  | .recv src _ _ => inferInstanceAs (Decidable (∀ l ∈ (w.node.numbers src).getLast?, _))
  | .timer _ => .isTrue trivial

theorem step_ordered (w : ImepNet) (op : ImepOp) (w' : ImepNet) (o : Unit)
    (h : w.node.Ordered none) (hop : w.Timely op) (hstep : w.step op = some (w', o)) :
    w'.node.Ordered none := by
  cases op with
  | send src =>
    obtain ⟨rfl, -⟩ := Prod.mk.inj (Option.some.inj hstep)
    exact h
  | recv src number now =>
    rw [step] at hstep
    split_ifs at hstep
    obtain ⟨n, hn, hw⟩ := Option.map_eq_some_iff.mp hstep
    obtain ⟨rfl, -⟩ := Prod.mk.inj hw
    exact ImepNode.recvIncoming_ordered h hop hn
  | timer now =>
    obtain ⟨n, hn, hw⟩ := Option.map_eq_some_iff.mp hstep
    obtain ⟨rfl, -⟩ := Prod.mk.inj hw
    rw [ImepNode.handlerIncomingTimer] at hn
    split_ifs at hn
    obtain rfl := Option.some.inj hn
    exact ImepNode.incomingLoop_ordered h

theorem delivers_of_ordered {w : ImepNet} (h : w.node.Ordered none) (src : ImepAddr) :
    w.Delivers src := by
  have hsrc := h.holds src (by simp)
  refine ⟨hsrc.increasing, fun t ht hall => ?_⟩
  have hne : w.node.numbers src ≠ [] := fun hnil => by
    have := (hsrc.quiet hnil).1
    rw [this] at ht
    cases ht
  have hl := List.getLast?_eq_some_getLast hne
  have hlo := ((hsrc.window _ hl).2 t ht).1
  obtain ⟨m, hm, hle⟩ := hall (t.pkt_.number - 1) (by omega)
  have hlast : m ≤ (w.node.numbers src).getLast hne := by
    have hinc := hsrc.increasing
    rw [← List.dropLast_append_getLast hne] at hm hinc
    rcases List.mem_append.mp hm with hm | hm
    · exact ((List.pairwise_append.mp hinc).2.2 m hm _ (List.mem_singleton_self _)).le
    · exact (List.mem_singleton.mp hm).le
  omega

/-- Blocks that arrive within the window, and not around the sequence number zero, are delivered in
order, whatever is lost, repeated or overtaken. -/
theorem timely_delivers {ops : List ImepOp} {w : ImepNet} {os : List Unit}
    (hops : Machine.Admits step Timely init ops) (hrun : Machine.run step init ops = some (w, os))
    (src : ImepAddr) : w.Delivers src := by
  refine delivers_of_ordered (Machine.run_invariant step_ordered ?_ hops hrun) src
  exact ⟨List.nodup_nil, fun x _ => .nil x, fun x hx => nomatch hx⟩

/-- The second of three blocks comes last. -/
theorem timely_delivers_late : ∃ w os, Machine.run step init
    [.send 1, .send 1, .send 1, .recv 1 1 0, .recv 1 3 0, .recv 1 2 0] = some (w, os) ∧
    w.node.numbers 1 = [1, 2, 3] ∧ w.Delivers 1 := by
  have h : (Machine.run step init
      [.send 1, .send 1, .send 1, .recv 1 1 0, .recv 1 3 0, .recv 1 2 0]).any
      (fun r => r.1.node.numbers 1 = [1, 2, 3]) = true := by decide
  obtain ⟨⟨w, os⟩, hrun, hnumbers⟩ := (Option.any_eq_true _ _).mp h
  exact ⟨w, os, hrun, of_decide_eq_true hnumbers, timely_delivers (by decide) hrun 1⟩

theorem run_send (n : ℕ) (w : ImepNet) (src : ImepAddr) :
    ∃ os, Machine.run step w (List.replicate n (.send src)) =
      some ({ w with
        controlSequence := Function.update w.controlSequence src (w.controlSequence src + n) },
        os) := by
  induction n generalizing w with
  | zero => exact ⟨[], by simp⟩
  | succ n ih =>
    obtain ⟨os, hos⟩ := ih { w with
      controlSequence := Function.update w.controlSequence src (w.controlSequence src + 1) }
    refine ⟨() :: os, ?_⟩
    rw [List.replicate_succ, Machine.run_cons_some rfl, hos, Option.map_some]
    simp only [Function.update_self, Function.update_idem]
    rw [Nat.add_assoc, Nat.add_comm 1]

/-- Block 256 is the first that is heard; its sequence number is zero, and a copy of it is taken for
the first block again. -/
theorem zero_repeats : ¬∀ ops w os src, Machine.run step init ops = some (w, os) →
    w.Delivers src := fun hall => by
  obtain ⟨os, hsend⟩ := run_send 256 init 1
  have h : (Machine.run step { init with
      controlSequence := Function.update init.controlSequence 1 (init.controlSequence 1 + 256) }
      [.recv 1 256 0, .recv 1 256 0]).any (fun r => r.1.node.numbers 1 = [256, 256]) = true := by
    decide
  obtain ⟨⟨w, os'⟩, hrun, hnumbers⟩ := (Option.any_eq_true _ _).mp h
  have hboth : Machine.run step init
      (List.replicate 256 (.send 1) ++ [.recv 1 256 0, .recv 1 256 0]) = some (w, os ++ os') := by
    rw [Machine.run_append, hsend, Option.bind_some, hrun, Option.map_some]
  have honce := (hall _ _ _ 1 hboth).once
  rw [of_decide_eq_true hnumbers] at honce
  exact absurd honce (by decide)

end ImepNet

end Ns2
