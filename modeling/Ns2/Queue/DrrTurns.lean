import Ns2.Queue.DrrFlows

/-! The turns of a deficit round robin queue: the flows have them in the order of the ring, and each
turn begins with one quantum more, as long as an overflow leaves the flow whose turn it is. -/

namespace Ns2.DRR

/-! ### The rounds -/

/-- What happens to the flow of bucket `b`: it becomes active, it loses its last packet in an
overflow, or it is visited by `deque`, with the deficit that is compared with its first packet and
the one that it is left with. -/
inductive Event where
  | activated (b : ℕ)
  | dropped (b : ℕ)
  | visited (b : ℕ) (start left : ℤ) (fate : Fate)

/-- The active flows, the next one first, the one whose turn has begun, and the deficits. -/
structure Rounds where
  order : List ℕ
  served : Option ℕ
  deficit : ℕ → ℤ

namespace Rounds

def start : Rounds := ⟨[], none, fun _ => 0⟩

def after (r : Rounds) : Event → Rounds
  | .activated b => ⟨r.order ++ [b], r.served, Function.update r.deficit b 0⟩
  | .dropped b => ⟨r.order.erase b, if r.served = some b then none else r.served, r.deficit⟩
  | .visited b _ left fate => ⟨fate.order b r.order.tail, if fate = .stays then some b else none,
      Function.update r.deficit b left⟩

/-- A turn begins with one quantum more than the deficit, goes on without, and ends with a deficit
that is smaller than the largest packet. -/
def Allows (quantum largest : ℤ) (r : Rounds) : Event → Prop
  | .activated b => b ∉ r.order
  | .dropped b => b ∈ r.order ∧ (r.served = some b → 0 ≤ r.deficit b ∧ r.deficit b < largest)
  | .visited b start left fate => r.order.head? = some b ∧
      start = r.deficit b + (if r.served = some b then 0 else quantum) ∧
      (fate ≠ .stays → 0 ≤ left ∧ left < largest)

instance (quantum largest : ℤ) (r : Rounds) : DecidablePred (r.Allows quantum largest)
  | .activated b => inferInstanceAs (Decidable (b ∉ r.order))
  | .dropped _ => inferInstanceAs (Decidable (_ ∧ _))
  | .visited _ _ _ _ => inferInstanceAs (Decidable (_ ∧ _ ∧ _))

def Accepts (quantum largest : ℤ) : Rounds → List Event → Prop
  | _, [] => True
  | r, e :: es => r.Allows quantum largest e ∧ Accepts quantum largest (r.after e) es

instance decidableAccepts (quantum largest : ℤ) :
    (r : Rounds) → (es : List Event) → Decidable (r.Accepts quantum largest es)
  | _, [] => inferInstanceAs (Decidable True)
  | r, e :: es =>
    have := decidableAccepts quantum largest (r.after e) es
    inferInstanceAs (Decidable (_ ∧ _))

theorem accepts_append {quantum largest : ℤ} {r : Rounds} {es es' : List Event} :
    r.Accepts quantum largest (es ++ es') ↔
      r.Accepts quantum largest es ∧ (es.foldl after r).Accepts quantum largest es' := by
  induction es generalizing r with
  | nil => simp [Accepts]
  | cons e es ih => rw [List.cons_append, Accepts, Accepts, ih, and_assoc, List.foldl_cons]

end Rounds

/-! ### The events of an operation -/

variable {π : Type*}

section Events

variable (c : DRRConfig π)

def storeEvents (s : DRR π) (b : ℕ) : List Event :=
  if (s.drr b).pkts + 1 = 1 then [.activated b] else []

def dropEvents : ℕ → DRR π → List Event
  | 0, _ => []
  | fuel + 1, s =>
    if s.bytecnt > c.blimit_ then
      (getMaxflow s).elim [] fun remq => (dropOne c s remq).elim [] fun r =>
        (if (r.1.drr remq).pkts = 0 then [.dropped remq] else []) ++ dropEvents fuel r.1
    else []

def visitEvents : ℕ → DRR π → List Event
  | 0, _ => []
  | fuel + 1, s =>
    s.curr.elim [] fun b => (visit c s).elim [] fun r =>
      .visited b (beginTurn c (s.drr b)).deficitCounter (r.1.drr b).deficitCounter r.2.2 ::
        r.2.1.elim (visitEvents fuel r.1) fun _ => []

def trace (s : DRR π) : Op π → List Event
  | .enque p => (bucket c p).elim [] fun b => storeEvents s b ++
      (store c s p b).elim [] fun s => dropEvents c (s.pktcnt.toNat + 1) s
  | .deque => if s.bytecnt = 0 then [] else visitEvents c (s.bytecnt + c.buckets_ + 1).toNat s

def traceAll (s : DRR π) : List (Op π) → List Event
  | [] => []
  | op :: ops => trace c s op ++ (step c s op).elim [] fun r => traceAll r.1 ops

/-! ### The condition -/

/-- No flow whose turn has begun loses its last packet to the overflow. -/
def spares : ℕ → DRR π → Bool
  | 0, _ => true
  | fuel + 1, s =>
    if s.bytecnt > c.blimit_ then
      (getMaxflow s).all fun remq =>
        ((s.drr remq).pkts != 1 || !(s.drr remq).turn) &&
          (dropOne c s remq).all fun r => spares fuel r.1
    else true

/-- The packet has a bucket, and the overflow that it causes spares the flow that is served. -/
def Fair (s : DRR π) : Op π → Prop
  | .enque p => 0 < c.size p ∧ 0 ≤ c.blimit_ ∧ (bucket c p).any fun b =>
      (store c s p b).all fun t => spares c (t.pktcnt.toNat + 1) t
  | .deque => 1 ≤ c.quantum_

instance (s : DRR π) : DecidablePred (Fair c s)
  | .enque _ => inferInstanceAs (Decidable (_ ∧ _ ∧ _))
  | .deque => inferInstanceAs (Decidable (1 ≤ c.quantum_))

end Events

/-! ### What the steps do to the rounds -/

variable {c : DRRConfig π} {largest : ℤ}

/-- The ring, the turn flags and the deficits are those of the rounds. -/
structure Follows (c : DRRConfig π) (largest : ℤ) (s : DRR π) (r : Rounds) : Prop where
  counts : Counts c s
  active : Active s r.order
  turn : ∀ b, (s.drr b).turn = true ↔ r.served = some b
  served : ∀ b, r.served = some b → r.order.head? = some b
  deficit : ∀ b, r.deficit b = (s.drr b).deficitCounter
  small : ∀ b, ∀ p ∈ (s.drr b).queue, c.size p ≤ largest

theorem head_append {l : List ℕ} {a b : ℕ} (h : l.head? = some a) : (l ++ [b]).head? = some a := by
  rw [List.head?_append, h]
  rfl

theorem head_erase {l : List ℕ} {a b : ℕ} (h : l.head? = some a) (hne : a ≠ b) :
    (l.erase b).head? = some a := by
  obtain ⟨tl, rfl⟩ := List.head?_eq_some_iff.mp h
  rw [List.erase_cons_tail (by simpa using hne)]
  rfl

theorem Follows.store {s : DRR π} {r : Rounds} (h : Follows c largest s r) {p : π} {b : ℕ}
    (hp : bucket c p = some b) (hsize : 0 < c.size p) (hsmall : c.size p ≤ largest) :
    ∃ t, DRR.store c s p b = some t ∧ r.Accepts c.quantum_ largest (storeEvents s b) ∧
      Follows c largest t ((storeEvents s b).foldl Rounds.after r) := by
  obtain ⟨t, h1, h2, h3, h4, h5, h6⟩ := store_places h.counts h.active hp hsize
  have hpkts := h.counts.pkts b
  have hsizes : ∀ x, ∀ d ∈ (t.drr x).queue, c.size d ≤ largest := by
    intro x d hd
    rw [h4] at hd
    rcases List.mem_append.mp hd with hd | hd
    · exact h.small x d hd
    · rw [List.mem_singleton.mp (List.mem_of_mem_filter hd)]
      exact hsmall
  refine ⟨t, h1, ?_⟩
  by_cases hq : (s.drr b).queue = []
  · have hone : (s.drr b).pkts + 1 = 1 := by simp [hpkts, hq]
    have hb : b ∉ r.order := fun hm => (h.active.active b).mp hm hq
    rw [if_pos hq] at h3
    rw [storeEvents, if_pos hone]
    refine ⟨⟨hb, trivial⟩, h2, h3, fun x => ?_, fun x hx => head_append (h.served x hx),
      fun x => ?_, hsizes⟩
    · rw [h5]
      exact h.turn x
    · rw [h6]
      show Function.update r.deficit b 0 x = _
      by_cases hx : x = b
      · rw [if_pos ⟨hx, hq⟩, hx, Function.update_self]
      · rw [if_neg fun hand => hx hand.1, Function.update_of_ne hx, h.deficit]
  · have hmore : ¬ (s.drr b).pkts + 1 = 1 := by
      have := List.length_pos_of_ne_nil hq
      omega
    rw [if_neg hq] at h3
    rw [storeEvents, if_neg hmore]
    refine ⟨trivial, h2, h3, fun x => ?_, h.served, fun x => ?_, hsizes⟩
    · rw [h5]
      exact h.turn x
    · rw [h6, if_neg fun hand => hq hand.2]
      exact h.deficit x

/-- One packet is dropped from a flow of the ring, and its last one only while it waits. -/
theorem Follows.dropOne {s : DRR π} {r : Rounds} (h : Follows c largest s r) {b : ℕ}
    (hb : b ∈ r.order) (hspare : (s.drr b).pkts = 1 → (s.drr b).turn = false) :
    ∃ t p, DRR.dropOne c s b = some (t, p) ∧ t.pktcnt = s.pktcnt - 1 ∧
      r.Accepts c.quantum_ largest (if (t.drr b).pkts = 0 then [.dropped b] else []) ∧
      Follows c largest t
        ((if (t.drr b).pkts = 0 then [.dropped b] else []).foldl Rounds.after r) := by
  obtain ⟨t, p, h1, h2, h3, h4, h5, h6, h7, h8⟩ := dropOne_leaves h.counts h.active hb
  have hpkts := h2.pkts b
  have hwas := h.counts.pkts b
  have hsizes : ∀ x, ∀ d ∈ (t.drr x).queue, c.size d ≤ largest := fun x d hd =>
    h.small x d (h5 x ▸ List.mem_append_right _ hd)
  refine ⟨t, p, h1, h4, ?_⟩
  by_cases hq : (t.drr b).queue = []
  · have hzero : (t.drr b).pkts = 0 := by simp [hpkts, hq]
    have hlast : (s.drr b).pkts = 1 := by
      have hpos := List.length_pos_of_ne_nil ((h.active.active b).mp hb)
      have htail := congrArg List.length (h6.symm.trans hq)
      rw [List.length_tail, List.length_nil] at htail
      omega
    have hwaits : r.served ≠ some b := fun hs => by
      have hturn := (h.turn b).mpr hs
      rw [hspare hlast] at hturn
      cases hturn
    rw [if_pos hq] at h3
    rw [if_pos hzero]
    refine ⟨⟨⟨hb, fun hs => absurd hs hwaits⟩, trivial⟩, h2, h3, fun x => ?_, fun x hx => ?_,
      fun x => ?_, hsizes⟩
    · rw [h7]
      show _ ↔ (if r.served = some b then none else r.served) = some x
      rw [if_neg hwaits]
      exact h.turn x
    · change (if r.served = some b then none else r.served) = some x at hx
      rw [if_neg hwaits] at hx
      exact head_erase (h.served x hx) fun he => hwaits (he ▸ hx)
    · rw [h8]
      exact h.deficit x
  · have hmore : ¬ (t.drr b).pkts = 0 := by
      have := List.length_pos_of_ne_nil hq
      omega
    rw [if_neg hq] at h3
    rw [if_neg hmore]
    refine ⟨trivial, h2, h3, fun x => ?_, h.served, fun x => ?_, hsizes⟩
    · rw [h7]
      exact h.turn x
    · rw [h8]
      exact h.deficit x

theorem Follows.dropLoop {s : DRR π} {r : Rounds} (h : Follows c largest s r)
    (hlimit : 0 ≤ c.blimit_) {fuel : ℕ} (hfuel : s.pktcnt.toNat < fuel)
    (hspare : spares c fuel s = true) : ∃ t D, DRR.dropLoop c fuel s = some (t, D) ∧
      r.Accepts c.quantum_ largest (dropEvents c fuel s) ∧
      Follows c largest t ((dropEvents c fuel s).foldl Rounds.after r) := by
  induction fuel generalizing s r with
  | zero => omega
  | succ fuel ih =>
    rw [DRR.dropLoop, dropEvents]
    rw [spares] at hspare
    by_cases hb : s.bytecnt > c.blimit_
    · rw [if_pos hb] at hspare
      rw [if_pos hb, if_pos hb]
      obtain ⟨head, tl, hl⟩ := List.exists_cons_of_ne_nil (h.active.ne_nil h.counts (by omega))
      have hcurr : s.curr = some head := by
        rw [h.active.curr, hl]
        rfl
      obtain ⟨remq, hm, h1⟩ := @maxLoop_spec _ _ _ h.active.ring s.flwcnt.toNat head head
        (by simp [hl]) (by simp [hl])
      have hmax : getMaxflow s = some remq := by
        rw [getMaxflow, hcurr, Option.bind_some, h1]
      rw [hmax, Option.all_some, Bool.and_eq_true, Bool.or_eq_true] at hspare
      obtain ⟨hone, hrest⟩ := hspare
      obtain ⟨t, p, h2, h3, h4, h5⟩ := h.dropOne hm fun hp => by simpa [hp] using hone
      have hpos := pktcnt_pos h.counts h.active hm
      rw [h2, Option.all_some] at hrest
      obtain ⟨u, D, h6, h7, h8⟩ := ih h5 (by omega) hrest
      rw [hmax, Option.bind_some, Option.elim_some, h2, Option.bind_some, Option.elim_some, h6,
        List.foldl_append, Rounds.accepts_append]
      exact ⟨u, p :: D, rfl, ⟨h4, h7⟩, h8⟩
    · rw [if_neg hb, if_neg hb]
      exact ⟨s, [], rfl, trivial, h⟩

/-- A visit begins the turn of the first flow or goes on with it. -/
theorem Follows.visit {s : DRR π} {r : Rounds} (h : Follows c largest s r) (hne : r.order ≠ [])
    (hquantum : 1 ≤ c.quantum_) : ∃ b t o fate, s.curr = some b ∧
      DRR.visit c s = some (t, o, fate) ∧ (o = none ↔ fate = .passes) ∧
      (fate = .passes → total c (fun x => need c (t.drr x)) < total c fun x => need c (s.drr x)) ∧
      r.Allows c.quantum_ largest
        (.visited b (beginTurn c (s.drr b)).deficitCounter (t.drr b).deficitCounter fate) ∧
      (fate = .passes → (fate.order b r.order.tail) ≠ []) ∧
      Follows c largest t (r.after
        (.visited b (beginTurn c (s.drr b)).deficitCounter (t.drr b).deficitCounter fate)) := by
  obtain ⟨b, tl, hl⟩ := List.exists_cons_of_ne_nil hne
  have hactive := h.active
  rw [hl] at hactive
  obtain ⟨t, o, fate, h1, hv⟩ := visit_spec h.counts hactive hquantum
  have hbegin : (beginTurn c (s.drr b)).deficitCounter =
      r.deficit b + if r.served = some b then 0 else c.quantum_ := by
    rw [beginTurn, h.deficit]
    by_cases hs : r.served = some b
    · rw [if_pos ((h.turn b).mpr hs), if_pos hs, add_zero]
    · rw [if_neg fun ht => hs ((h.turn b).mp ht), if_neg hs]
  refine ⟨b, t, o, fate, hactive.curr, h1, hv.sent, hv.need,
    ⟨by rw [hl]; rfl, hbegin, fun hf => ?_⟩, fun hf => by simp [hf, Fate.order], hv.counts, ?_,
    fun x => ?_, fun x hx => ?_, fun x => ?_, fun x d hd => h.small x d (hv.queue x ▸ List.mem_append_right _ hd)⟩
  · obtain ⟨p, hp, hlt⟩ := hv.left hf
    exact ⟨hv.counts.deficit b, hlt.trans_le (h.small b p hp)⟩
  · show Active t (fate.order b r.order.tail)
    rw [hl]
    exact hv.active
  · show _ ↔ (if fate = .stays then some b else none) = some x
    by_cases hx : x = b
    · subst hx
      rw [hv.turn]
      by_cases hf : fate = .stays <;> simp [hf]
    · rw [hv.turns x hx, h.turn]
      refine iff_of_false (fun hs => ?_) ?_
      · have hhead := h.served x hs
        rw [hl] at hhead
        exact hx (Option.some.inj hhead).symm
      · by_cases hf : fate = .stays <;> simp [hf, Ne.symm hx]
  · change (if fate = .stays then some b else none) = some x at hx
    by_cases hf : fate = .stays
    · rw [if_pos hf] at hx
      subst hf
      exact hx
    · rw [if_neg hf] at hx
      cases hx
  · show Function.update r.deficit b _ x = _
    by_cases hx : x = b
    · rw [hx, Function.update_self]
    · rw [Function.update_of_ne hx, h.deficit, hv.deficits x hx]

theorem Follows.dequeLoop {s : DRR π} {r : Rounds} (h : Follows c largest s r) (hne : r.order ≠ [])
    (hquantum : 1 ≤ c.quantum_) {fuel : ℕ} (hfuel : total c (fun b => need c (s.drr b)) < fuel) :
    ∃ t p, DRR.dequeLoop c fuel s = some (t, p) ∧
      r.Accepts c.quantum_ largest (visitEvents c fuel s) ∧
      Follows c largest t ((visitEvents c fuel s).foldl Rounds.after r) := by
  induction fuel generalizing s r with
  | zero =>
    have : 0 ≤ total c (fun b => need c (s.drr b)) := Finset.sum_nonneg fun b _ => need_nonneg c _
    omega
  | succ fuel ih =>
    obtain ⟨b, t, o, fate, h1, h2, h3, h4, h5, h6, h7⟩ := h.visit hne hquantum
    rw [dequeLoop_succ, visitEvents, h1, h2, Option.bind_some, Option.elim_some, Option.elim_some]
    cases o with
    | some p => exact ⟨t, p, rfl, ⟨h5, trivial⟩, h7⟩
    | none =>
      obtain rfl := h3.mp rfl
      have hneed := h4 rfl
      obtain ⟨u, p, h8, h9, h10⟩ := ih h7 (h6 rfl) (by omega)
      exact ⟨u, p, h8, ⟨h5, h9⟩, h10⟩

/-! ### Runs -/

theorem Follows.step {s : DRR π} {r : Rounds} (h : Follows c largest s r) {op : Op π}
    (hfair : Fair c s op) (hsmall : ∀ p, op = .enque p → c.size p ≤ largest) :
    ∃ t o, DRR.step c s op = some (t, o) ∧ r.Accepts c.quantum_ largest (trace c s op) ∧
      Follows c largest t ((trace c s op).foldl Rounds.after r) := by
  cases op with
  | enque p =>
    obtain ⟨hsize, hlimit, hspare⟩ := hfair
    obtain ⟨b, hb⟩ : ∃ b, bucket c p = some b := by
      cases hb : bucket c p with
      | none =>
        rw [hb] at hspare
        cases hspare
      | some b => exact ⟨b, rfl⟩
    rw [hb, Option.any_some] at hspare
    obtain ⟨t, h1, h2, h3⟩ := h.store hb hsize (hsmall p rfl)
    rw [h1, Option.all_some] at hspare
    obtain ⟨u, D, h4, h5, h6⟩ := h3.dropLoop hlimit (Nat.lt_succ_self t.pktcnt.toNat) hspare
    have henque : enque c s p = some (u, D) := by
      rw [enque, hb, Option.bind_some, h1, Option.bind_some]
      exact h4
    rw [trace, hb, Option.elim_some, h1, Option.elim_some, List.foldl_append, Rounds.accepts_append]
    exact ⟨u, (D, none), by rw [DRR.step, henque]; rfl, ⟨h2, h5⟩, h6⟩
  | deque =>
    rw [DRR.step, trace, deque]
    by_cases h0 : s.bytecnt = 0
    · rw [if_pos h0, if_pos h0]
      exact ⟨s, ([], none), rfl, trivial, h⟩
    · rw [if_neg h0, if_neg h0]
      have hne : r.order ≠ [] := fun he => by
        have hactive := h.active
        rw [he] at hactive
        exact h0 (bytecnt_eq_zero h.counts hactive)
      obtain ⟨b, tl, hl⟩ := List.exists_cons_of_ne_nil hne
      have hlt := h.active.lt h.counts (by simp [hl] : b ∈ r.order)
      have hneed := total_need h.counts
      obtain ⟨t, p, h1, h2, h3⟩ := @Follows.dequeLoop _ _ _ _ _ h hne hfair
        (s.bytecnt + c.buckets_ + 1).toNat (by omega)
      rw [h1]
      exact ⟨t, ([], some p), rfl, h2, h3⟩

theorem follows_new (c : DRRConfig π) (largest : ℤ) : Follows c largest new Rounds.start where
  counts := counts_new c
  active := active_new
  turn b := by simp [new, Rounds.start]
  served b hb := by cases hb
  deficit b := rfl
  small b p hp := by cases hp

theorem Follows.run {s : DRR π} {r : Rounds} (h : Follows c largest s r) {ops : List (Op π)}
    (hfair : Machine.Admits (DRR.step c) (Fair c) s ops)
    (hsmall : ∀ p, Op.enque p ∈ ops → c.size p ≤ largest) :
    ∃ t os, Machine.run (DRR.step c) s ops = some (t, os) ∧
      r.Accepts c.quantum_ largest (traceAll c s ops) := by
  induction ops generalizing s r with
  | nil => exact ⟨s, [], rfl, trivial⟩
  | cons op ops ih =>
    obtain ⟨t, o, h1, h2, h3⟩ := h.step hfair.1 fun p hp => hsmall p (by simp [hp])
    obtain ⟨u, os, h4, h5⟩ := ih h3 (hfair.2 t o h1) fun p hp =>
      hsmall p (List.mem_cons_of_mem op hp)
    rw [traceAll, h1, Option.elim_some, Rounds.accepts_append, Machine.run_cons_some h1, h4]
    exact ⟨u, o :: os, rfl, h2, h5⟩

/-- Each turn begins with a quantum more, in the order of the ring, and a flow that becomes active
again begins with the quantum alone, as long as no overflow empties the flow that is served. -/
theorem drr_turns {ops : List (Op π)} (hfair : Machine.Admits (step c) (Fair c) new ops)
    (hsmall : ∀ p, Op.enque p ∈ ops → c.size p ≤ largest) :
    ∃ t os, Machine.run (step c) new ops = some (t, os) ∧
      Rounds.start.Accepts c.quantum_ largest (traceAll c new ops) :=
  (follows_new c largest).run hfair hsmall

/-- Sizes and source addresses as they are given, and room for 800 bytes. -/
def tight : DRRConfig (ℤ × ℤ) where
  buckets_ := 10
  blimit_ := 800
  quantum_ := 500
  mask_ := 0
  saddr := Prod.fst
  size := Prod.snd

theorem drr_turns_tight : ∃ t os, Machine.run (step tight) new
      [.enque (3, 100), .enque (3, 450), .deque, .enque (4, 200), .deque, .deque] = some (t, os) ∧
    Rounds.start.Accepts tight.quantum_ 450 (traceAll tight new
      [.enque (3, 100), .enque (3, 450), .deque, .enque (4, 200), .deque, .deque]) :=
  drr_turns (by decide) (by simp [tight])

/-- The flow loses its last packet during its turn, and has to pass when it is active again. -/
theorem victim_passes : ¬ ∀ (c : DRRConfig (ℤ × ℤ)) (ops : List (Op (ℤ × ℤ))) (largest : ℤ),
    1 ≤ c.quantum_ → 1 ≤ c.buckets_ → 0 ≤ c.blimit_ →
    (∀ p, Op.enque p ∈ ops → 0 < c.size p ∧ c.size p ≤ largest ∧ 0 ≤ c.saddr p) →
    Rounds.start.Accepts c.quantum_ largest (traceAll c new ops) := by
  intro hall
  have h := hall tight [.enque (3, 100), .enque (3, 450), .deque, .enque (4, 400), .enque (3, 100),
    .deque, .deque] 450 (by decide) (by decide) (by decide) (by simp [tight])
  revert h
  decide

end Ns2.DRR
