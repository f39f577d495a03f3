import Ns2.Queue.Drr

/-! The flows of a deficit round robin queue: the ring holds the active buckets, the counters are
those of the stored packets, and a bucket's packets leave in the order of their arrival. -/

namespace Ns2.DRR

variable {π : Type*}

/-! ### The ring -/

/-- A bucket without its links. -/
def flow (q : PacketDRR π) : PacketDRR π := { q with prev := none, next := none }

theorem flow_queue {q q' : PacketDRR π} (h : flow q' = flow q) : q'.queue = q.queue :=
  (congrArg PacketDRR.queue h :)

theorem flow_pkts {q q' : PacketDRR π} (h : flow q' = flow q) : q'.pkts = q.pkts :=
  (congrArg PacketDRR.pkts h :)

theorem flow_bcount {q q' : PacketDRR π} (h : flow q' = flow q) : q'.bcount = q.bcount :=
  (congrArg PacketDRR.bcount h :)

theorem flow_deficit {q q' : PacketDRR π} (h : flow q' = flow q) :
    q'.deficitCounter = q.deficitCounter := (congrArg PacketDRR.deficitCounter h :)

theorem flow_turn {q q' : PacketDRR π} (h : flow q' = flow q) : q'.turn = q.turn :=
  (congrArg PacketDRR.turn h :)

theorem nexts_setNext (drr : ℕ → PacketDRR π) (b : ℕ) (x : Option ℕ) :
    nexts (setNext drr b x) = Function.update (nexts drr) b x := by
  funext a
  by_cases ha : a = b
  · subst ha
    rw [nexts, setNext, Function.update_self, Function.update_self]
  · rw [nexts, setNext, Function.update_of_ne ha, Function.update_of_ne ha]

theorem prevs_setPrev (drr : ℕ → PacketDRR π) (b : ℕ) (x : Option ℕ) :
    prevs (setPrev drr b x) = Function.update (prevs drr) b x := by
  funext a
  by_cases ha : a = b
  · subst ha
    rw [prevs, setPrev, Function.update_self, Function.update_self]
  · rw [prevs, setPrev, Function.update_of_ne ha, Function.update_of_ne ha]

theorem prevs_setNext (drr : ℕ → PacketDRR π) (b : ℕ) (x : Option ℕ) :
    prevs (setNext drr b x) = prevs drr := by
  funext a
  by_cases ha : a = b
  · subst ha
    rw [prevs, setNext, Function.update_self]
  · rw [prevs, setNext, Function.update_of_ne ha]

theorem nexts_setPrev (drr : ℕ → PacketDRR π) (b : ℕ) (x : Option ℕ) :
    nexts (setPrev drr b x) = nexts drr := by
  funext a
  by_cases ha : a = b
  · subst ha
    rw [nexts, setPrev, Function.update_self]
  · rw [nexts, setPrev, Function.update_of_ne ha]

theorem flow_setNext (drr : ℕ → PacketDRR π) (b : ℕ) (x : Option ℕ) (a : ℕ) :
    flow (setNext drr b x a) = flow (drr a) := by
  by_cases ha : a = b
  · subst ha
    rw [setNext, Function.update_self]
    rfl
  · rw [setNext, Function.update_of_ne ha]

theorem flow_setPrev (drr : ℕ → PacketDRR π) (b : ℕ) (x : Option ℕ) (a : ℕ) :
    flow (setPrev drr b x a) = flow (drr a) := by
  by_cases ha : a = b
  · subst ha
    rw [setPrev, Function.update_self]
    rfl
  · rw [setPrev, Function.update_of_ne ha]

theorem activate_spec {drr : ℕ → PacketDRR π} {l : List ℕ} {this : ℕ}
    (h : LinkRing (nexts drr) (prevs drr) l) (hn : this ∉ l) :
    ∃ drr' head, activate drr this l.head? = some (drr', head) ∧
      LinkRing (nexts drr') (prevs drr') (l ++ [this]) ∧ (l ++ [this]).head? = some head ∧
      ∀ b, flow (drr' b) = flow (drr b) := by
  cases l with
  | nil =>
    refine ⟨_, this, rfl, LinkRing.singleton.mpr ⟨?_, ?_⟩, rfl, fun b => ?_⟩
    · rw [nexts_setNext, Function.update_self]
    · rw [prevs_setNext, prevs_setPrev, Function.update_self]
    · rw [flow_setNext, flow_setPrev]
  | cons a t =>
    obtain ⟨p, hp⟩ := LinkRing.exists_last a t
    have hprev : prevs drr a = some p := (h.linked_last hp).2
    have hne : a ≠ this := fun he => hn (by simp [he])
    have hkeep : prevs (setNext (setPrev drr this (some p)) this (some a)) a = some p := by
      rw [prevs_setNext, prevs_setPrev, Function.update_of_ne hne, hprev]
    refine ⟨setPrev (setNext (setNext (setPrev drr this (some p)) this (some a)) p (some this)) a
      (some this), a, ?_, ?_, rfl, ?_⟩
    · rw [List.head?_cons, activate]
      rw [show (drr a).prev = some p from hprev,
        show ((setNext (setPrev drr this (some p)) this (some a)) a).prev = some p from hkeep]
      rfl
    · rw [nexts_setPrev, nexts_setNext, nexts_setNext, nexts_setPrev, prevs_setPrev, prevs_setNext,
        prevs_setNext, prevs_setPrev]
      exact h.insert hn hprev
    · intro b
      rw [flow_setPrev, flow_setNext, flow_setNext, flow_setPrev]

theorem relink_spec {drr : ℕ → PacketDRR π} {l : List ℕ} {this y : ℕ}
    (h : LinkRing (nexts drr) (prevs drr) (this :: y :: l)) :
    ∃ drr', relink drr this = some drr' ∧ LinkRing (nexts drr') (prevs drr') (y :: l) ∧
      nexts drr' this = some y ∧ ∀ b, flow (drr' b) = flow (drr b) := by
  obtain ⟨p, hp⟩ := LinkRing.exists_last this (y :: l)
  have hprev : prevs drr this = some p := (h.linked_last hp).2
  have hnext : nexts drr this = some y := h.linked_head.1
  obtain ⟨hnot, -⟩ := List.nodup_cons.mp h.nodup
  have hpl : p ∈ y :: l := List.mem_of_getLast? (List.getLast?_cons_cons ▸ hp)
  have hpne : this ≠ p := fun he => hnot (he ▸ hpl)
  have hyne : this ≠ y := fun he => hnot (by simp [he])
  have hkeep : (setPrev drr y (some p) this).prev = some p := by
    have := congrFun (prevs_setPrev drr y (some p)) this
    rw [Function.update_of_ne hyne] at this
    exact this.trans hprev
  have hkeep' : (setPrev drr y (some p) this).next = some y :=
    (congrFun (nexts_setPrev drr y (some p)) this).trans hnext
  refine ⟨setNext (setPrev drr y (some p)) p (some y), ?_, ?_, ?_, fun b => ?_⟩
  · rw [relink, show (drr this).next = some y from hnext, Option.bind_some,
      show (drr this).prev = some p from hprev]
    dsimp only
    rw [hkeep, hkeep']
    rfl
  · rw [nexts_setNext, nexts_setPrev, prevs_setNext, prevs_setPrev]
    exact h.remove hprev
  · rw [nexts_setNext, nexts_setPrev, Function.update_of_ne hpne, hnext]
  · rw [flow_setNext, flow_setPrev]

theorem idle_spec {drr : ℕ → PacketDRR π} {t : List ℕ} {this head : ℕ}
    (h : LinkRing (nexts drr) (prevs drr) (head :: t)) (hm : this ∈ head :: t) :
    ∃ drr', idle drr this head = some (drr', ((head :: t).erase this).head?) ∧
      LinkRing (nexts drr') (prevs drr') ((head :: t).erase this) ∧
      ∀ b, flow (drr' b) = flow (drr b) := by
  by_cases he : head = this
  · subst he
    rw [List.erase_cons_head, idle, if_pos rfl]
    cases t with
    | nil =>
      have hself : (drr head).next = some head := (LinkRing.singleton.mp h).1
      rw [if_pos hself]
      exact ⟨drr, rfl, .nil, fun _ => rfl⟩
    | cons y t =>
      have hnext : (drr head).next = some y := h.linked_head.1
      have hyne : y ≠ head := fun he => (List.nodup_cons.mp h.nodup).1 (by simp [he])
      obtain ⟨drr', h1, h2, h3, h4⟩ := relink_spec h
      rw [if_neg (by simpa [hnext] using hyne), h1]
      exact ⟨drr', by rw [Option.map_some, show (drr' head).next = some y from h3]; rfl, h2, h4⟩
  · obtain ⟨A, B, rfl⟩ := List.append_of_mem ((List.mem_cons.mp hm).resolve_left (Ne.symm he))
    have hnot : this ∉ A := fun ha => by
      have hnd := (List.nodup_cons.mp h.nodup).2
      exact (List.nodup_append.mp hnd).2.2 this ha this (by simp) rfl
    have herase : (head :: (A ++ this :: B)).erase this = head :: A ++ B := by
      rw [List.erase_cons_tail (by simpa using he), List.erase_append_right _ hnot,
        List.erase_cons_head, List.cons_append]
    have hrot : LinkRing (nexts drr) (prevs drr) (this :: (B ++ head :: A)) := by
      rw [← List.cons_append] at h
      simpa using h.rotate
    obtain ⟨y, l, hl⟩ : ∃ y l, B ++ head :: A = y :: l := by
      cases B with
      | nil => exact ⟨head, A, rfl⟩
      | cons y B => exact ⟨y, B ++ head :: A, rfl⟩
    rw [hl] at hrot
    obtain ⟨drr', h1, h2, -, h4⟩ := relink_spec hrot
    rw [herase, idle, if_neg he, h1]
    rw [← hl] at h2
    exact ⟨drr', rfl, h2.rotate, h4⟩

/-! ### The counters -/

variable {c : DRRConfig π}

def bytes (c : DRRConfig π) (l : List π) : ℤ := (l.map c.size).sum

/-- The sum over all buckets. -/
def total (c : DRRConfig π) (f : ℕ → ℤ) : ℤ := ∑ b ∈ Finset.range c.buckets_.toNat, f b

theorem total_change {f g : ℕ → ℤ} {b : ℕ} (hb : (b : ℤ) < c.buckets_) (h : ∀ x, x ≠ b → g x = f x) :
    total c g = total c f - f b + g b := by
  have hm : b ∈ Finset.range c.buckets_.toNat := Finset.mem_range.mpr (by omega)
  rw [total, total, ← Finset.add_sum_erase _ _ hm, ← Finset.add_sum_erase _ f hm,
    Finset.sum_congr rfl fun x hx => h x (Finset.ne_of_mem_erase hx)]
  ring

structure Counts (c : DRRConfig π) (s : DRR π) : Prop where
  pkts : ∀ b, (s.drr b).pkts = (s.drr b).queue.length
  bcount : ∀ b, (s.drr b).bcount = bytes c (s.drr b).queue
  pktcnt : s.pktcnt = total c fun b => (s.drr b).queue.length
  bytecnt : s.bytecnt = total c fun b => bytes c (s.drr b).queue
  deficit : ∀ b, 0 ≤ (s.drr b).deficitCounter
  pos : ∀ b, ∀ p ∈ (s.drr b).queue, 0 < c.size p
  home : ∀ b, ∀ p ∈ (s.drr b).queue, bucket c p = some b

theorem bucket_lt {p : π} {b : ℕ} (h : bucket c p = some b) : (b : ℤ) < c.buckets_ := by
  rw [bucket] at h
  obtain ⟨i, -, h⟩ := Option.bind_eq_some_iff.mp h
  dsimp only at h
  split_ifs at h with hb
  obtain rfl := Option.some.inj h
  have := Int.tmod_lt_of_pos i (by omega : 0 < c.buckets_)
  omega

/-- Only the queue of bucket `b` changes, with the counters. -/
theorem Counts.change {s s' : DRR π} (h : Counts c s) {b : ℕ} (hb : (b : ℤ) < c.buckets_)
    (hother : ∀ x, x ≠ b → flow (s'.drr x) = flow (s.drr x))
    (hpkts : (s'.drr b).pkts = (s'.drr b).queue.length)
    (hbcount : (s'.drr b).bcount = bytes c (s'.drr b).queue)
    (hdef : 0 ≤ (s'.drr b).deficitCounter)
    (hq : ∀ p ∈ (s'.drr b).queue, 0 < c.size p ∧ bucket c p = some b)
    (hpktcnt : s'.pktcnt = s.pktcnt - (s.drr b).queue.length + (s'.drr b).queue.length)
    (hbytecnt : s'.bytecnt = s.bytecnt - bytes c (s.drr b).queue + bytes c (s'.drr b).queue) :
    Counts c s' := by
  have hqueue : ∀ x, x ≠ b → (s'.drr x).queue = (s.drr x).queue := fun x hx =>
    flow_queue (hother x hx)
  refine ⟨fun x => ?_, fun x => ?_, ?_, ?_, fun x => ?_, fun x => ?_, fun x => ?_⟩
  · by_cases hx : x = b
    · exact hx ▸ hpkts
    · rw [hqueue x hx, ← h.pkts]
      exact flow_pkts (hother x hx)
  · by_cases hx : x = b
    · exact hx ▸ hbcount
    · rw [hqueue x hx, ← h.bcount]
      exact flow_bcount (hother x hx)
  · rw [total_change hb (f := fun b => ((s.drr b).queue.length : ℤ)) fun x hx => by rw [hqueue x hx],
      ← h.pktcnt, hpktcnt]
  · rw [total_change hb (f := fun b => bytes c (s.drr b).queue) fun x hx => by rw [hqueue x hx],
      ← h.bytecnt, hbytecnt]
  · by_cases hx : x = b
    · exact hx ▸ hdef
    · exact (h.deficit x).trans_eq (flow_deficit (hother x hx)).symm
  · by_cases hx : x = b
    · subst hx
      exact fun p hp => (hq p hp).1
    · rw [hqueue x hx]
      exact h.pos x
  · by_cases hx : x = b
    · subst hx
      exact fun p hp => (hq p hp).2
    · rw [hqueue x hx]
      exact h.home x

/-- The links do not count. -/
theorem Counts.congr {s s' : DRR π} (h : Counts c s) (hf : ∀ b, flow (s'.drr b) = flow (s.drr b))
    (hp : s'.pktcnt = s.pktcnt) (hb : s'.bytecnt = s.bytecnt) : Counts c s' := by
  have hqueue : ∀ x, (s'.drr x).queue = (s.drr x).queue := fun x => flow_queue (hf x)
  refine ⟨fun x => ?_, fun x => ?_, ?_, ?_, fun x => ?_, fun x => ?_, fun x => ?_⟩
  · rw [hqueue, ← h.pkts]
    exact flow_pkts (hf x)
  · rw [hqueue, ← h.bcount]
    exact flow_bcount (hf x)
  · simp only [hp, hqueue]
    exact h.pktcnt
  · simp only [hb, hqueue]
    exact h.bytecnt
  · exact (h.deficit x).trans_eq (flow_deficit (hf x)).symm
  · rw [hqueue]
    exact h.pos x
  · rw [hqueue]
    exact h.home x

/-- The ring `l`, entered at `curr`, has the buckets that store packets. -/
structure Active (s : DRR π) (l : List ℕ) : Prop where
  ring : LinkRing (nexts s.drr) (prevs s.drr) l
  curr : s.curr = l.head?
  active : ∀ b, b ∈ l ↔ (s.drr b).queue ≠ []
  flwcnt : s.flwcnt = l.length

theorem Active.congr {s s' : DRR π} {l : List ℕ} (h : Active s l) (hn : nexts s'.drr = nexts s.drr)
    (hp : prevs s'.drr = prevs s.drr) (hc : s'.curr = s.curr) (hf : s'.flwcnt = s.flwcnt)
    (hq : ∀ b, (s'.drr b).queue ≠ [] ↔ (s.drr b).queue ≠ []) : Active s' l :=
  ⟨hn ▸ hp ▸ h.ring, hc.trans h.curr, fun b => (h.active b).trans (hq b).symm, hf.trans h.flwcnt⟩

theorem modify_other (s : DRR π) {b x : ℕ} (f : PacketDRR π → PacketDRR π) (hx : x ≠ b) :
    (s.modify b f).drr x = s.drr x := Function.update_of_ne hx _ _

theorem modify_self (s : DRR π) (b : ℕ) (f : PacketDRR π → PacketDRR π) :
    (s.modify b f).drr b = f (s.drr b) := Function.update_self _ _ _

theorem nexts_modify (s : DRR π) (b : ℕ) {f : PacketDRR π → PacketDRR π}
    (hf : ∀ q, (f q).next = q.next) : nexts (s.modify b f).drr = nexts s.drr := by
  funext x
  by_cases hx : x = b
  · subst hx
    exact (congrArg PacketDRR.next (modify_self s x f)).trans (hf _)
  · exact congrArg PacketDRR.next (modify_other s f hx)

theorem prevs_modify (s : DRR π) (b : ℕ) {f : PacketDRR π → PacketDRR π}
    (hf : ∀ q, (f q).prev = q.prev) : prevs (s.modify b f).drr = prevs s.drr := by
  funext x
  by_cases hx : x = b
  · subst hx
    exact (congrArg PacketDRR.prev (modify_self s x f)).trans (hf _)
  · exact congrArg PacketDRR.prev (modify_other s f hx)

/-! ### Storing -/

/-- The packets of one bucket. -/
def own (c : DRRConfig π) (b : ℕ) (l : List π) : List π := l.filter fun p => bucket c p = some b

theorem own_singleton {p : π} {a : ℕ} (hp : bucket c p = some a) (b : ℕ) :
    own c b [p] = if b = a then [p] else [] := by
  by_cases hb : b = a
  · simp [own, hp, hb]
  · simp [own, hp, hb, Ne.symm hb]

/-- A bucket that becomes active is the last one of the ring and has no deficit. -/
theorem store_places {s : DRR π} {l : List ℕ} (hc : Counts c s) (ha : Active s l) {p : π} {b : ℕ}
    (hp : bucket c p = some b) (hsize : 0 < c.size p) :
    ∃ s', store c s p b = some s' ∧ Counts c s' ∧
      Active s' (if (s.drr b).queue = [] then l ++ [b] else l) ∧
      (∀ x, (s'.drr x).queue = (s.drr x).queue ++ own c x [p]) ∧
      (∀ x, (s'.drr x).turn = (s.drr x).turn) ∧
      ∀ x, (s'.drr x).deficitCounter =
        if x = b ∧ (s.drr b).queue = [] then 0 else (s.drr x).deficitCounter := by
  have hb := bucket_lt hp
  let f : PacketDRR π → PacketDRR π := fun q =>
    let q := setSrc c p q
    { q with queue := q.queue ++ [p], pkts := q.pkts + 1, bcount := q.bcount + c.size p }
  have hset : ∀ q : PacketDRR π, (setSrc c p q).queue = q.queue ∧ (setSrc c p q).pkts = q.pkts ∧
      (setSrc c p q).bcount = q.bcount ∧ (setSrc c p q).deficitCounter = q.deficitCounter ∧
      (setSrc c p q).next = q.next ∧ (setSrc c p q).prev = q.prev ∧
      (setSrc c p q).turn = q.turn := by
    intro q
    rw [setSrc]
    split_ifs <;> exact ⟨rfl, rfl, rfl, rfl, rfl, rfl, rfl⟩
  obtain ⟨t, ht⟩ : ∃ t : DRR π, t =
    { s.modify b f with pktcnt := s.pktcnt + 1, bytecnt := s.bytecnt + c.size p } := ⟨_, rfl⟩
  have hself : t.drr b = f (s.drr b) := by rw [ht]; exact modify_self s b f
  have hother : ∀ x, x ≠ b → t.drr x = s.drr x := fun x hx => by rw [ht]; exact modify_other s f hx
  obtain ⟨g1, g2, g3, g4, g5, g6, g7⟩ := hset (s.drr b)
  have hqb : (t.drr b).queue = (s.drr b).queue ++ [p] := by rw [hself, ← g1]
  have hqueue : ∀ x, (t.drr x).queue = (s.drr x).queue ++ own c x [p] := by
    intro x
    rw [own_singleton hp]
    by_cases hx : x = b
    · rw [if_pos hx, hx, hqb]
    · rw [if_neg hx, hother x hx, List.append_nil]
  have hcount : Counts c t := by
    apply hc.change hb fun x hx => by rw [hother x hx]
    · rw [hqb, hself]
      show (setSrc c p (s.drr b)).pkts + 1 = _
      rw [g2, hc.pkts]
      simp
    · rw [hqb, hself]
      show (setSrc c p (s.drr b)).bcount + c.size p = _
      rw [g3, hc.bcount]
      simp [bytes]
    · rw [hself]
      exact (hc.deficit b).trans_eq g4.symm
    · intro d hd
      rw [hqb] at hd
      rcases List.mem_append.mp hd with hd | hd
      · exact ⟨hc.pos b d hd, hc.home b d hd⟩
      · rw [List.mem_singleton.mp hd]
        exact ⟨hsize, hp⟩
    · rw [hqb, ht]
      show s.pktcnt + 1 = _
      simp
      ring
    · rw [hqb, ht]
      show s.bytecnt + c.size p = _
      simp [bytes]
      ring
  have hnext : nexts t.drr = nexts s.drr := by
    rw [ht]
    exact nexts_modify s b fun q => (hset q).2.2.2.2.1
  have hprev : prevs t.drr = prevs s.drr := by
    rw [ht]
    exact prevs_modify s b fun q => (hset q).2.2.2.2.2.1
  have hcurr : t.curr = s.curr := by rw [ht]; rfl
  have hflw : t.flwcnt = s.flwcnt := by rw [ht]; rfl
  have hstore : store c s p b = if (t.drr b).pkts = 1 then
      (activate t.drr b t.curr).map fun r =>
        { t with drr := r.1, curr := some r.2, flwcnt := t.flwcnt + 1 }.modify b fun q =>
          { q with deficitCounter := 0 }
      else some t := by
    rw [ht]
    rfl
  have hlen : (t.drr b).pkts = (s.drr b).queue.length + 1 := by
    rw [hcount.pkts, hqb]
    simp
  have hturn : ∀ x, (t.drr x).turn = (s.drr x).turn := by
    intro x
    by_cases hx : x = b
    · rw [hx, hself, ← g7]
    · rw [hother x hx]
  have hdeficit : ∀ x, (t.drr x).deficitCounter = (s.drr x).deficitCounter := by
    intro x
    by_cases hx : x = b
    · rw [hx, hself, ← g4]
    · rw [hother x hx]
  rw [hstore]
  by_cases h1 : (t.drr b).pkts = 1
  · -- the bucket becomes active
    rw [if_pos h1]
    have hempty : (s.drr b).queue = [] := List.length_eq_zero_iff.mp (by omega)
    have hbl : b ∉ l := fun hm => (ha.active b).mp hm hempty
    have hring : LinkRing (nexts t.drr) (prevs t.drr) l := hnext ▸ hprev ▸ ha.ring
    obtain ⟨drr', head, k1, k2, k3, k4⟩ := activate_spec hring hbl
    rw [hcurr, ha.curr, k1]
    let f₀ : PacketDRR π → PacketDRR π := fun q => { q with deficitCounter := 0 }
    let v : DRR π := { t with drr := drr', curr := some head, flwcnt := t.flwcnt + 1 }
    have hself' : (v.modify b f₀).drr b = f₀ (drr' b) := modify_self v b f₀
    have hother' : ∀ x, x ≠ b → (v.modify b f₀).drr x = drr' x := fun x hx => modify_other v f₀ hx
    have hqueue' : ∀ x, ((v.modify b f₀).drr x).queue = (t.drr x).queue := by
      intro x
      by_cases hx : x = b
      · subst hx
        rw [hself']
        show (drr' x).queue = _
        exact flow_queue (k4 x)
      · rw [hother' x hx]
        exact flow_queue (k4 x)
    rw [if_pos hempty]
    refine ⟨v.modify b f₀, rfl, ?_, ⟨?_, k3.symm, fun x => ?_, ?_⟩, fun x =>
      (hqueue' x).trans (hqueue x), fun x => ?_, fun x => ?_⟩
    · apply hcount.change hb
      · intro x hx
        rw [hother' x hx]
        exact k4 x
      · rw [hqueue', hself', ← hcount.pkts b]
        show (drr' b).pkts = _
        exact flow_pkts (k4 b)
      · rw [hqueue', hself', ← hcount.bcount b]
        show (drr' b).bcount = _
        exact flow_bcount (k4 b)
      · rw [hself']
      · rw [hqueue']
        exact fun d hd => ⟨hcount.pos b d hd, hcount.home b d hd⟩
      · rw [hqueue']
        show t.pktcnt = _
        ring
      · rw [hqueue']
        show t.bytecnt = _
        ring
    · rw [nexts_modify v b (f := f₀) fun _ => rfl, prevs_modify v b (f := f₀) fun _ => rfl]
      exact k2
    · rw [hqueue', hqueue, own_singleton hp, List.mem_append, List.mem_singleton, ha.active]
      by_cases hx : x = b
      · simp [hx]
      · simp [hx]
    · show t.flwcnt + 1 = _
      rw [hflw, ha.flwcnt]
      simp
    · rw [← hturn x, ← flow_turn (k4 x)]
      by_cases hx : x = b
      · rw [hx, hself']
      · rw [hother' x hx]
    · by_cases hx : x = b
      · rw [if_pos ⟨hx, hempty⟩, hx, hself']
      · rw [if_neg fun hand => hx hand.1, hother' x hx, ← hdeficit x]
        exact flow_deficit (k4 x)
  · have hne : (s.drr b).queue ≠ [] := fun he => h1 (by rw [hlen, he]; rfl)
    rw [if_neg h1, if_neg hne]
    refine ⟨t, rfl, hcount, ha.congr hnext hprev hcurr hflw fun x => ?_, hqueue, hturn, fun x => ?_⟩
    · by_cases hx : x = b
      · subst hx
        simp [hqb, hne]
      · rw [hother x hx]
    · rw [if_neg fun hand => hne hand.2, hdeficit]

theorem store_spec {s : DRR π} {l : List ℕ} (hc : Counts c s) (ha : Active s l) {p : π} {b : ℕ}
    (hp : bucket c p = some b) (hsize : 0 < c.size p) :
    ∃ s' l', store c s p b = some s' ∧ Counts c s' ∧ Active s' l' ∧
      ∀ x, (s'.drr x).queue = (s.drr x).queue ++ own c x [p] := by
  obtain ⟨s', h1, h2, h3, h4, -⟩ := store_places hc ha hp hsize
  exact ⟨s', _, h1, h2, h3, h4⟩

/-! ### Taking a packet out -/

/-- The first packet of bucket `b` is taken out, and the counters are lowered. -/
structure Taken (c : DRRConfig π) (s t : DRR π) (b : ℕ) (p : π) (rest : List π) : Prop where
  was : (s.drr b).queue = p :: rest
  other : ∀ x, x ≠ b → t.drr x = s.drr x
  queue : (t.drr b).queue = rest
  pkts : (t.drr b).pkts = (s.drr b).pkts - 1
  bcount : (t.drr b).bcount = (s.drr b).bcount - c.size p
  next : (t.drr b).next = (s.drr b).next
  prev : (t.drr b).prev = (s.drr b).prev
  deficit : 0 ≤ (t.drr b).deficitCounter
  pktcnt : t.pktcnt = s.pktcnt - 1
  bytecnt : t.bytecnt = s.bytecnt - c.size p
  curr : t.curr = s.curr
  flwcnt : t.flwcnt = s.flwcnt

section Taken

variable {s t : DRR π} {l : List ℕ} {b : ℕ} {p : π} {rest : List π}

theorem Taken.queue_eq (ht : Taken c s t b p rest) (hc : Counts c s) (x : ℕ) :
    (s.drr x).queue = own c x [p] ++ (t.drr x).queue := by
  have hp : bucket c p = some b := hc.home b p (by simp [ht.was])
  rw [own_singleton hp]
  by_cases hx : x = b
  · rw [if_pos hx, hx, ht.was, ht.queue]
    rfl
  · rw [if_neg hx, ht.other x hx]
    rfl

theorem Taken.counts (ht : Taken c s t b p rest) (hc : Counts c s) : Counts c t := by
  have hp : bucket c p = some b := hc.home b p (by simp [ht.was])
  apply hc.change (bucket_lt hp) fun x hx => by rw [ht.other x hx]
  · rw [ht.pkts, ht.queue, hc.pkts, ht.was]
    simp
  · rw [ht.bcount, ht.queue, hc.bcount, ht.was]
    simp [bytes]
  · exact ht.deficit
  · rw [ht.queue]
    intro d hd
    have hd' : d ∈ (s.drr b).queue := by simp [ht.was, hd]
    exact ⟨hc.pos b d hd', hc.home b d hd'⟩
  · rw [ht.pktcnt, ht.queue, ht.was, List.length_cons]
    push_cast
    ring
  · rw [ht.bytecnt, ht.queue, ht.was]
    simp only [bytes, List.map_cons, List.sum_cons]
    ring

theorem Taken.nexts (ht : Taken c s t b p rest) : nexts t.drr = nexts s.drr := by
  funext x
  by_cases hx : x = b
  · exact hx ▸ ht.next
  · exact congrArg PacketDRR.next (ht.other x hx)

theorem Taken.prevs (ht : Taken c s t b p rest) : prevs t.drr = prevs s.drr := by
  funext x
  by_cases hx : x = b
  · exact hx ▸ ht.prev
  · exact congrArg PacketDRR.prev (ht.other x hx)

theorem Taken.active (ht : Taken c s t b p rest) (ha : Active s l) (hrest : rest ≠ []) :
    Active t l := by
  apply ha.congr ht.nexts ht.prevs ht.curr ht.flwcnt
  intro x
  by_cases hx : x = b
  · subst hx
    simp [ht.was, ht.queue, hrest]
  · rw [ht.other x hx]

/-- The last packet leaves, and its bucket goes idle. -/
theorem Taken.idle (ht : Taken c s t b p rest) (hc : Counts c s) (ha : Active s l) (hrest : rest = [])
    {head : ℕ} (hhead : t.curr = some head) : ∃ drr' curr', DRR.idle t.drr b head = some (drr', curr') ∧
      Counts c { t with drr := drr', curr := curr', flwcnt := t.flwcnt - 1 } ∧
      Active { t with drr := drr', curr := curr', flwcnt := t.flwcnt - 1 } (l.erase b) ∧
      ∀ x, flow (drr' x) = flow (t.drr x) := by
  have hb : b ∈ l := (ha.active b).mpr (by simp [ht.was])
  have hring : LinkRing (DRR.nexts t.drr) (DRR.prevs t.drr) l := ht.nexts ▸ ht.prevs ▸ ha.ring
  have hl : l.head? = some head := ha.curr.symm.trans (ht.curr.symm.trans hhead)
  obtain ⟨tl, rfl⟩ := List.head?_eq_some_iff.mp hl
  obtain ⟨drr', h1, h2, h3⟩ := idle_spec hring hb
  refine ⟨drr', _, h1, (ht.counts hc).congr h3 rfl rfl, ⟨h2, rfl, fun x => ?_, ?_⟩, h3⟩
  · show x ∈ _ ↔ (drr' x).queue ≠ []
    rw [flow_queue (h3 x), ha.ring.nodup.mem_erase_iff, ha.active]
    by_cases hx : x = b
    · simp [hx, ht.queue, hrest]
    · simp [hx, ht.other x hx]
  · show t.flwcnt - 1 = _
    rw [ht.flwcnt, ha.flwcnt, List.length_erase_of_mem hb]
    simp

end Taken

/-! ### Dropping -/

theorem maxLoop_spec {drr : ℕ → PacketDRR π} {l : List ℕ} (h : LinkRing (nexts drr) (prevs drr) l)
    {n tmp maxflow : ℕ} (ht : tmp ∈ l) (hm : maxflow ∈ l) :
    ∃ r ∈ l, maxLoop drr n tmp maxflow = some r := by
  induction n generalizing tmp maxflow with
  | zero => exact ⟨maxflow, hm, rfl⟩
  | succ n ih =>
    obtain ⟨b, hb, hnext⟩ := h.next_mem ht
    rw [maxLoop, show (drr tmp).next = some b from hnext]
    apply ih hb
    split_ifs <;> assumption

/-- A bucket that goes idle leaves the ring, with its turn and its deficit. -/
theorem dropOne_leaves {s : DRR π} {l : List ℕ} (hc : Counts c s) (ha : Active s l) {b : ℕ}
    (hb : b ∈ l) : ∃ s' p, dropOne c s b = some (s', p) ∧ Counts c s' ∧
      Active s' (if (s'.drr b).queue = [] then l.erase b else l) ∧ s'.pktcnt = s.pktcnt - 1 ∧
      (∀ x, (s.drr x).queue = own c x [p] ++ (s'.drr x).queue) ∧
      (s'.drr b).queue = (s.drr b).queue.tail ∧ (∀ x, (s'.drr x).turn = (s.drr x).turn) ∧
      ∀ x, (s'.drr x).deficitCounter = (s.drr x).deficitCounter := by
  obtain ⟨p, rest, hq⟩ := List.exists_cons_of_ne_nil ((ha.active b).mp hb)
  let f : PacketDRR π → PacketDRR π := fun q =>
    { q with queue := rest, bcount := q.bcount - c.size p, pkts := q.pkts - 1 }
  let t : DRR π := { s.modify b f with bytecnt := s.bytecnt - c.size p, pktcnt := s.pktcnt - 1 }
  have hself : t.drr b = f (s.drr b) := modify_self s b f
  have ht : Taken c s t b p rest := by
    refine ⟨hq, fun x hx => modify_other s f hx, ?_, ?_, ?_, ?_, ?_, ?_, rfl, rfl, rfl, rfl⟩
    · rw [hself]
    · rw [hself]
    · rw [hself]
    · rw [hself]
    · rw [hself]
    · rw [hself]
      exact hc.deficit b
  have hdrop : dropOne c s b = if (t.drr b).pkts = 0 then
      t.curr.bind fun head => (idle t.drr b head).map fun r =>
        ({ t with drr := r.1, curr := r.2, flwcnt := t.flwcnt - 1 }, p)
      else some (t, p) := by
    rw [dropOne, hq]
    rfl
  have hturn : ∀ x, (t.drr x).turn = (s.drr x).turn := by
    intro x
    by_cases hx : x = b
    · rw [hx, hself]
    · rw [ht.other x hx]
  have hdeficit : ∀ x, (t.drr x).deficitCounter = (s.drr x).deficitCounter := by
    intro x
    by_cases hx : x = b
    · rw [hx, hself]
    · rw [ht.other x hx]
  rw [hdrop, (ht.counts hc).pkts, ht.queue]
  by_cases hrest : rest = []
  · rw [if_pos (by simp [hrest])]
    obtain ⟨head, hhead⟩ : ∃ head, t.curr = some head := by
      cases l with
      | nil => cases hb
      | cons a l => exact ⟨a, ht.curr.trans ha.curr⟩
    obtain ⟨drr', curr', h1, h2, h3, h4⟩ := ht.idle hc ha hrest hhead
    rw [hhead, Option.bind_some, h1]
    have hq' : (drr' b).queue = rest := (flow_queue (h4 b)).trans ht.queue
    refine ⟨_, p, rfl, h2, ?_, rfl, fun x => (ht.queue_eq hc x).trans (by rw [flow_queue (h4 x)]),
      by rw [hq', hq]; rfl, fun x => (flow_turn (h4 x)).trans (hturn x),
      fun x => (flow_deficit (h4 x)).trans (hdeficit x)⟩
    rw [if_pos (hq'.trans hrest)]
    exact h3
  · rw [if_neg (by simpa using hrest)]
    refine ⟨t, p, rfl, ht.counts hc, ?_, rfl, ht.queue_eq hc, by rw [ht.queue, hq]; rfl, hturn,
      hdeficit⟩
    rw [ht.queue, if_neg hrest]
    exact ht.active ha hrest

theorem dropOne_spec {s : DRR π} {l : List ℕ} (hc : Counts c s) (ha : Active s l) {b : ℕ}
    (hb : b ∈ l) : ∃ s' p l', dropOne c s b = some (s', p) ∧ Counts c s' ∧ Active s' l' ∧
      s'.pktcnt = s.pktcnt - 1 ∧ ∀ x, (s.drr x).queue = own c x [p] ++ (s'.drr x).queue := by
  obtain ⟨s', p, h1, h2, h3, h4, h5, -⟩ := dropOne_leaves hc ha hb
  exact ⟨s', p, _, h1, h2, h3, h4, h5⟩

theorem bytecnt_eq_zero {s : DRR π} (hc : Counts c s) (ha : Active s []) : s.bytecnt = 0 := by
  rw [hc.bytecnt]
  apply Finset.sum_eq_zero
  intro b _
  have hq : (s.drr b).queue = [] := by
    by_contra hq
    cases (ha.active b).mpr hq
  rw [hq]
  rfl

/-- There is something to drop as long as bytes are counted. -/
theorem Active.ne_nil {s : DRR π} {l : List ℕ} (hc : Counts c s) (ha : Active s l)
    (hpos : 0 < s.bytecnt) : l ≠ [] := by
  rintro rfl
  exact hpos.ne' (bytecnt_eq_zero hc ha)

theorem total_pos {f : ℕ → ℤ} {b : ℕ} (hf : ∀ x, 0 ≤ f x) (hb : (b : ℤ) < c.buckets_)
    (hpos : 0 < f b) : 0 < total c f :=
  Finset.sum_pos' (fun x _ => hf x) ⟨b, Finset.mem_range.mpr (by omega), hpos⟩

theorem Active.lt {s : DRR π} {l : List ℕ} (hc : Counts c s) (ha : Active s l) {b : ℕ} (hb : b ∈ l) :
    (b : ℤ) < c.buckets_ := by
  obtain ⟨p, hp⟩ := List.exists_mem_of_ne_nil _ ((ha.active b).mp hb)
  exact bucket_lt (hc.home b p hp)

theorem pktcnt_pos {s : DRR π} {l : List ℕ} (hc : Counts c s) (ha : Active s l) {b : ℕ} (hb : b ∈ l) :
    0 < s.pktcnt := by
  rw [hc.pktcnt]
  apply total_pos (fun x => Int.natCast_nonneg _) (ha.lt hc hb)
  exact Int.natCast_pos.mpr (List.length_pos_of_ne_nil ((ha.active b).mp hb))

theorem dropLoop_spec {s : DRR π} {l : List ℕ} (hc : Counts c s) (ha : Active s l)
    (hlimit : 0 ≤ c.blimit_) {fuel : ℕ} (hfuel : s.pktcnt.toNat < fuel) :
    ∃ s' D l', dropLoop c fuel s = some (s', D) ∧ Counts c s' ∧ Active s' l' ∧
      ∀ x, (s.drr x).queue = own c x D ++ (s'.drr x).queue := by
  induction fuel generalizing s l with
  | zero => omega
  | succ fuel ih =>
    rw [dropLoop]
    by_cases hb : s.bytecnt > c.blimit_
    · rw [if_pos hb]
      have hne := ha.ne_nil hc (by omega)
      obtain ⟨head, tl, hl⟩ := List.exists_cons_of_ne_nil hne
      have hcurr : s.curr = some head := by rw [ha.curr, hl]; rfl
      obtain ⟨remq, hm, h1⟩ := @maxLoop_spec _ _ _ ha.ring s.flwcnt.toNat head head
        (by simp [hl]) (by simp [hl])
      obtain ⟨t, p, l', h2, h3, h4, h5, h6⟩ := dropOne_spec hc ha hm
      have hpos := pktcnt_pos hc ha hm
      obtain ⟨u, D, l'', h7, h8, h9, h10⟩ := ih h3 h4 (by omega)
      rw [getMaxflow, hcurr, Option.bind_some, h1, Option.bind_some, h2, Option.bind_some, h7]
      refine ⟨u, p :: D, l'', rfl, h8, h9, fun x => ?_⟩
      rw [h6 x, h10 x, ← List.append_assoc]
      congr 1
      rw [own, own, own, ← List.filter_append]
      rfl
    · rw [if_neg hb]
      exact ⟨s, [], l, rfl, hc, ha, fun x => rfl⟩

theorem enque_spec {s : DRR π} {l : List ℕ} (hc : Counts c s) (ha : Active s l)
    (hlimit : 0 ≤ c.blimit_) {p : π} {b : ℕ} (hp : bucket c p = some b) (hsize : 0 < c.size p) :
    ∃ s' D l', enque c s p = some (s', D) ∧ Counts c s' ∧ Active s' l' ∧
      ∀ x, (s.drr x).queue ++ own c x [p] = own c x D ++ (s'.drr x).queue := by
  obtain ⟨t, l', h1, h2, h3, h4⟩ := store_spec hc ha hp hsize
  obtain ⟨u, D, l'', h5, h6, h7, h8⟩ := dropLoop_spec h2 h3 hlimit (Nat.lt_succ_self t.pktcnt.toNat)
  refine ⟨u, D, l'', ?_, h6, h7, fun x => by rw [← h4, h8]⟩
  rw [enque, hp, Option.bind_some, h1, Option.bind_some]
  exact h5

/-! ### Returning a packet -/

/-- What the head packet of a bucket still lacks, with one for a turn that is not over. -/
def need (c : DRRConfig π) (q : PacketDRR π) : ℤ :=
  match q.queue with
  | [] => 0
  | p :: _ => max 0 (c.size p - q.deficitCounter) + if q.turn then 1 else 0

theorem need_nonneg (c : DRRConfig π) (q : PacketDRR π) : 0 ≤ need c q := by
  unfold need
  split
  · exact le_rfl
  · split_ifs <;> omega

/-- The buckets together lack no more than what the loop has fuel for. -/
theorem total_need {s : DRR π} (hc : Counts c s) : total c (fun b => need c (s.drr b)) ≤
    s.bytecnt + max 0 c.buckets_ := by
  have hle : ∀ b, need c (s.drr b) ≤ bytes c (s.drr b).queue + 1 := by
    intro b
    have hdef := hc.deficit b
    have hpos := hc.pos b
    unfold need
    split
    next hq => simp [hq, bytes]
    next p rest hq =>
      rw [hq] at hpos
      have hp := hpos p (by simp)
      have hrest : 0 ≤ bytes c rest := by
        apply List.sum_nonneg
        intro x hx
        obtain ⟨d, hd, rfl⟩ := List.mem_map.mp hx
        exact (hpos d (by simp [hd])).le
      have hcons : bytes c (p :: rest) = c.size p + bytes c rest := by simp [bytes]
      rw [hq, hcons]
      split_ifs <;> omega
  calc total c (fun b => need c (s.drr b))
      ≤ total c (fun b => bytes c (s.drr b).queue + 1) := Finset.sum_le_sum fun b _ => hle b
    _ = s.bytecnt + max 0 c.buckets_ := by
      rw [hc.bytecnt, total, total, Finset.sum_add_distrib]
      simp [max_comm]

theorem need_cons {q : PacketDRR π} {p : π} {rest : List π} (hq : q.queue = p :: rest) :
    need c q = max 0 (c.size p - q.deficitCounter) + if q.turn then 1 else 0 := by
  rw [need, hq]

/-- A turn that sends nothing brings the bucket closer to its head packet. -/
theorem beginTurn_spec {q : PacketDRR π} {p : π} {rest : List π} (hq : q.queue = p :: rest)
    (hdef : 0 ≤ q.deficitCounter) (hquantum : 1 ≤ c.quantum_) :
    (beginTurn c q).queue = p :: rest ∧ (beginTurn c q).pkts = q.pkts ∧
      (beginTurn c q).bcount = q.bcount ∧ (beginTurn c q).next = q.next ∧
      (beginTurn c q).prev = q.prev ∧ 0 ≤ (beginTurn c q).deficitCounter ∧
      ((beginTurn c q).deficitCounter < c.size p →
        max 0 (c.size p - (beginTurn c q).deficitCounter) < need c q) := by
  rw [need_cons hq, beginTurn]
  by_cases hturn : q.turn
  · rw [if_pos hturn, if_pos hturn]
    exact ⟨hq, rfl, rfl, rfl, rfl, hdef, fun _ => by omega⟩
  · rw [if_neg hturn, if_neg hturn]
    refine ⟨hq, rfl, rfl, rfl, rfl, ?_, fun hlt => ?_⟩
    · show 0 ≤ q.deficitCounter + c.quantum_
      omega
    · change q.deficitCounter + c.quantum_ < c.size p at hlt
      show max 0 (c.size p - (q.deficitCounter + c.quantum_)) < _
      omega

theorem beginTurn_turn (c : DRRConfig π) (q : PacketDRR π) : (beginTurn c q).turn = true := by
  rw [beginTurn]
  split_ifs with hturn
  · exact hturn
  · rfl

/-- How a visit to a bucket ends: its turn goes on, goes to the next bucket, or its queue is empty. -/
inductive Fate where
  | stays
  | passes
  | empties
  deriving DecidableEq

/-- The ring after a visit to its first bucket. -/
def Fate.order : Fate → ℕ → List ℕ → List ℕ
  | stays, b, tl => b :: tl
  | passes, b, tl => tl ++ [b]
  | empties, _, tl => tl

/-- One round of the loop of `deque`. -/
def visit (c : DRRConfig π) (s : DRR π) : Option (DRR π × Option π × Fate) :=
  s.curr.bind fun b =>
    let s := s.modify b (beginTurn c)
    match (s.drr b).queue with
    | [] => none
    | p :: rest =>
      if (s.drr b).deficitCounter ≥ c.size p then
        let s := s.modify b fun q =>
          { q with
            deficitCounter := q.deficitCounter - c.size p
            queue := rest
            bcount := q.bcount - c.size p
            pkts := q.pkts - 1 }
        let s := { s with pktcnt := s.pktcnt - 1, bytecnt := s.bytecnt - c.size p }
        if (s.drr b).pkts = 0 then
          let s := s.modify b fun q => { q with turn := false, deficitCounter := 0 }
          (idle s.drr b b).map fun r =>
            ({ s with drr := r.1, curr := r.2, flwcnt := s.flwcnt - 1 }, some p, .empties)
        else some (s, some p, .stays)
      else
        let s := s.modify b fun q => { q with turn := false }
        some ({ s with curr := (s.drr b).next }, none, .passes)

theorem dequeLoop_succ (fuel : ℕ) (s : DRR π) : dequeLoop c (fuel + 1) s =
    (visit c s).bind fun r => r.2.1.elim (dequeLoop c fuel r.1) fun p => some (r.1, p) := by
  rw [dequeLoop, visit]
  cases s.curr with
  | none => rfl
  | some b =>
    dsimp only [Option.bind_some]
    cases ((s.modify b (beginTurn c)).drr b).queue with
    | nil => rfl
    | cons p rest =>
      dsimp only
      split_ifs
      · rw [Option.bind_map, Option.map_eq_bind]
        rfl
      · rfl
      · rfl

structure Visited (c : DRRConfig π) (s s' : DRR π) (b : ℕ) (tl : List ℕ) (o : Option π) (fate : Fate) :
    Prop where
  counts : Counts c s'
  active : Active s' (fate.order b tl)
  queue : ∀ x, (s.drr x).queue = own c x o.toList ++ (s'.drr x).queue
  sent : o = none ↔ fate = .passes
  turn : (s'.drr b).turn = decide (fate = .stays)
  turns : ∀ x, x ≠ b → (s'.drr x).turn = (s.drr x).turn
  deficits : ∀ x, x ≠ b → (s'.drr x).deficitCounter = (s.drr x).deficitCounter
  left : fate ≠ .stays → ∃ p ∈ (s.drr b).queue, (s'.drr b).deficitCounter < c.size p
  need : fate = .passes → total c (fun x => need c (s'.drr x)) < total c fun x => need c (s.drr x)

theorem visit_spec {s : DRR π} {b : ℕ} {tl : List ℕ} (hc : Counts c s) (ha : Active s (b :: tl))
    (hquantum : 1 ≤ c.quantum_) :
    ∃ s' o fate, visit c s = some (s', o, fate) ∧ Visited c s s' b tl o fate := by
  have hcurr : s.curr = some b := ha.curr
  obtain ⟨p, rest, hq⟩ := List.exists_cons_of_ne_nil ((ha.active b).mp (by simp))
  have hlt : (b : ℤ) < c.buckets_ := bucket_lt (hc.home b p (by simp [hq]))
  have hdef := hc.deficit b
  have hmem : p ∈ (s.drr b).queue := by simp [hq]
  -- the bucket's turn begins, or goes on
  let t : DRR π := s.modify b (beginTurn c)
  have ht : t.drr b = beginTurn c (s.drr b) := modify_self s b _
  have hother : ∀ x, x ≠ b → t.drr x = s.drr x := fun x hx => modify_other s _ hx
  obtain ⟨g1, g2, g3, g4, g5, g6, g7⟩ := beginTurn_spec hq hdef hquantum
  have g8 := beginTurn_turn c (s.drr b)
  rw [← ht] at g1 g2 g3 g4 g5 g6 g7 g8
  rw [visit, hcurr, Option.bind_some]
  dsimp only
  rw [show (s.modify b (beginTurn c)).drr b = t.drr b from rfl, g1]
  dsimp only
  by_cases hsize : (t.drr b).deficitCounter ≥ c.size p
  · -- the packet is sent
    rw [if_pos hsize]
    let f : PacketDRR π → PacketDRR π := fun q =>
      { q with
        deficitCounter := q.deficitCounter - c.size p
        queue := rest
        bcount := q.bcount - c.size p
        pkts := q.pkts - 1 }
    let u : DRR π := { t.modify b f with pktcnt := s.pktcnt - 1, bytecnt := s.bytecnt - c.size p }
    have hu : u.drr b = f (t.drr b) := modify_self t b f
    have hu' : ∀ x, x ≠ b → u.drr x = s.drr x := fun x hx => (modify_other t f hx).trans (hother x hx)
    have htaken : Taken c s u b p rest := by
      refine ⟨hq, hu', ?_, ?_, ?_, ?_, ?_, ?_, rfl, rfl, rfl, rfl⟩
      · rw [hu]
      · rw [hu, ← g2]
      · rw [hu, ← g3]
      · rw [hu, ← g4]
      · rw [hu, ← g5]
      · rw [hu]
        show 0 ≤ (t.drr b).deficitCounter - c.size p
        omega
    have hpkts := (htaken.counts hc).pkts b
    rw [htaken.queue] at hpkts
    change ∃ s' o fate, (if (u.drr b).pkts = 0 then
      let w := u.modify b fun q => { q with turn := false, deficitCounter := 0 }
      (idle w.drr b b).map fun r =>
        ({ w with drr := r.1, curr := r.2, flwcnt := w.flwcnt - 1 }, some p, Fate.empties)
      else some (u, some p, .stays)) = some (s', o, fate) ∧ _
    rw [hpkts]
    by_cases hrest : rest = []
    · rw [if_pos (by simp [hrest])]
      let f₀ : PacketDRR π → PacketDRR π := fun q => { q with turn := false, deficitCounter := 0 }
      let w : DRR π := u.modify b f₀
      have hw : w.drr b = f₀ (u.drr b) := modify_self u b f₀
      have hw' : ∀ x, x ≠ b → w.drr x = s.drr x := fun x hx => (modify_other u f₀ hx).trans (hu' x hx)
      have htaken' : Taken c s w b p rest := by
        refine ⟨hq, hw', ?_, ?_, ?_, ?_, ?_, ?_, rfl, rfl, rfl, rfl⟩
        · rw [hw, ← htaken.queue]
        · rw [hw, ← htaken.pkts]
        · rw [hw, ← htaken.bcount]
        · rw [hw, ← htaken.next]
        · rw [hw, ← htaken.prev]
        · rw [hw]
      obtain ⟨drr', curr', h1, h2, h3, h4⟩ := htaken'.idle hc ha hrest hcurr
      have hturn : (drr' b).turn = false := by
        rw [flow_turn (h4 b), hw]
      have hdeficit : (drr' b).deficitCounter = 0 := by
        rw [flow_deficit (h4 b), hw]
      have herase : (b :: tl).erase b = tl := List.erase_cons_head b tl
      show ∃ s' o fate, (idle w.drr b b).map _ = some (s', o, fate) ∧ _
      rw [h1]
      refine ⟨_, some p, .empties, rfl, h2, herase ▸ h3, fun x => ?_, by simp, hturn, fun x hx => ?_,
        fun x hx => ?_, fun _ => ⟨p, hmem, hdeficit.trans_lt (hc.pos b p hmem)⟩, by simp⟩
      · exact (htaken'.queue_eq hc x).trans (by rw [flow_queue (h4 x)]; rfl)
      · rw [← hw' x hx]
        exact flow_turn (h4 x)
      · rw [← hw' x hx]
        exact flow_deficit (h4 x)
    · rw [if_neg (by simpa using hrest)]
      refine ⟨u, some p, .stays, rfl, htaken.counts hc, htaken.active ha hrest, htaken.queue_eq hc,
        by simp, ?_, fun x hx => by rw [hu' x hx], fun x hx => by rw [hu' x hx], by simp, by simp⟩
      rw [hu]
      exact g8
  · -- the turn goes to the next bucket
    rw [if_neg hsize]
    let f : PacketDRR π → PacketDRR π := fun q => { q with turn := false }
    let u : DRR π := t.modify b f
    have hu : u.drr b = f (t.drr b) := modify_self t b f
    have hu' : ∀ x, x ≠ b → u.drr x = s.drr x := fun x hx => (modify_other t f hx).trans (hother x hx)
    have hqueue : ∀ x, (u.drr x).queue = (s.drr x).queue := by
      intro x
      by_cases hx : x = b
      · rw [hx, hu, hq, ← g1]
      · rw [hu' x hx]
    have hnexts : nexts u.drr = nexts s.drr := by
      funext x
      by_cases hx : x = b
      · rw [hx, nexts, nexts, hu, ← g4]
      · exact congrArg PacketDRR.next (hu' x hx)
    have hprevs : prevs u.drr = prevs s.drr := by
      funext x
      by_cases hx : x = b
      · rw [hx, prevs, prevs, hu, ← g5]
      · exact congrArg PacketDRR.prev (hu' x hx)
    have hring : LinkRing (nexts u.drr) (prevs u.drr) ([b] ++ tl) := hnexts ▸ hprevs ▸ ha.ring
    have hnext : (u.drr b).next = (tl ++ [b]).head? := by
      have hrot := hring.rotate
      cases tl with
      | nil => exact (LinkRing.singleton.mp hring).1
      | cons y tl => exact hring.linked_head.1
    have hcounts : Counts c { u with curr := (u.drr b).next } := by
      apply hc.change hlt fun x hx => by rw [hu' x hx]
      · rw [hqueue, ← hc.pkts, ← g2, hu]
      · rw [hqueue, ← hc.bcount, ← g3, hu]
      · rw [hu]
        exact g6
      · rw [hqueue]
        exact fun d hd => ⟨hc.pos b d hd, hc.home b d hd⟩
      · rw [hqueue]
        show s.pktcnt = _
        ring
      · rw [hqueue]
        show s.bytecnt = _
        ring
    have hactive : Active { u with curr := (u.drr b).next } (tl ++ [b]) := by
      refine ⟨hring.rotate, hnext, fun x => ?_, ?_⟩
      · show x ∈ _ ↔ (u.drr x).queue ≠ []
        rw [hqueue, ← ha.active]
        simp [or_comm]
      · show s.flwcnt = _
        rw [ha.flwcnt]
        simp
    have hless : need c (u.drr b) < need c (s.drr b) := by
      rw [need_cons ((hqueue b).trans hq), hu, if_neg Bool.false_ne_true, add_zero]
      exact g7 (not_le.mp hsize)
    have htotal := @total_change _ c (fun x => need c (s.drr x)) (fun x => need c (u.drr x)) b hlt
      fun x hx => by rw [hu' x hx]
    have hsmall : (u.drr b).deficitCounter < c.size p := by
      rw [hu]
      exact not_le.mp hsize
    refine ⟨_, none, .passes, rfl, hcounts, hactive, fun x => (hqueue x).symm, by simp, ?_,
      fun x hx => congrArg PacketDRR.turn (hu' x hx),
      fun x hx => congrArg PacketDRR.deficitCounter (hu' x hx), fun _ => ⟨p, hmem, hsmall⟩, fun _ => ?_⟩
    · show (u.drr b).turn = _
      rw [hu]
      rfl
    · show total c (fun x => need c (u.drr x)) < _
      omega

theorem dequeLoop_spec {s : DRR π} {l : List ℕ} (hc : Counts c s) (ha : Active s l) (hne : l ≠ [])
    (hquantum : 1 ≤ c.quantum_) {fuel : ℕ}
    (hfuel : total c (fun b => need c (s.drr b)) < fuel) :
    ∃ s' p l', dequeLoop c fuel s = some (s', p) ∧ Counts c s' ∧ Active s' l' ∧
      ∀ x, (s.drr x).queue = own c x [p] ++ (s'.drr x).queue := by
  induction fuel generalizing s l with
  | zero =>
    have : 0 ≤ total c (fun b => need c (s.drr b)) := Finset.sum_nonneg fun b _ => need_nonneg c _
    omega
  | succ fuel ih =>
    obtain ⟨b, tl, rfl⟩ := List.exists_cons_of_ne_nil hne
    obtain ⟨t, o, fate, h1, hv⟩ := visit_spec hc ha hquantum
    rw [dequeLoop_succ, h1, Option.bind_some]
    cases o with
    | some p => exact ⟨t, p, _, rfl, hv.counts, hv.active, hv.queue⟩
    | none =>
      obtain rfl := hv.sent.mp rfl
      have hneed := hv.need rfl
      obtain ⟨s', p, l', h2, h3, h4, h5⟩ := ih hv.counts hv.active (by simp [Fate.order]) (by omega)
      exact ⟨s', p, l', h2, h3, h4, fun x => (hv.queue x).trans (h5 x)⟩

theorem bytes_nonneg {l : List π} (h : ∀ p ∈ l, 0 < c.size p) : 0 ≤ bytes c l := by
  apply List.sum_nonneg
  intro x hx
  obtain ⟨d, hd, rfl⟩ := List.mem_map.mp hx
  exact (h d hd).le

theorem bytecnt_pos {s : DRR π} {l : List ℕ} (hc : Counts c s) (ha : Active s l) {b : ℕ} (hb : b ∈ l) :
    0 < s.bytecnt := by
  rw [hc.bytecnt]
  apply total_pos (fun x => bytes_nonneg (hc.pos x)) (ha.lt hc hb)
  obtain ⟨p, rest, hq⟩ := List.exists_cons_of_ne_nil ((ha.active b).mp hb)
  have hpos := hc.pos b
  rw [hq] at hpos ⊢
  have hrest := bytes_nonneg fun d hd => hpos d (List.mem_cons_of_mem p hd)
  have hp := hpos p (by simp)
  rw [bytes, List.map_cons, List.sum_cons]
  rw [bytes] at hrest
  omega

theorem deque_spec {s : DRR π} {l : List ℕ} (hc : Counts c s) (ha : Active s l)
    (hquantum : 1 ≤ c.quantum_) :
    ∃ s' o l', deque c s = some (s', o) ∧ Counts c s' ∧ Active s' l' ∧ (o = none ↔ l = []) ∧
      ∀ x, (s.drr x).queue = own c x o.toList ++ (s'.drr x).queue := by
  rw [deque]
  by_cases h0 : s.bytecnt = 0
  · rw [if_pos h0]
    refine ⟨s, none, l, rfl, hc, ha, ⟨fun _ => ?_, fun _ => rfl⟩, fun x => rfl⟩
    apply List.eq_nil_iff_forall_not_mem.mpr
    intro b hb
    have := bytecnt_pos hc ha hb
    omega
  · rw [if_neg h0]
    have hne : l ≠ [] := by
      rintro rfl
      exact h0 (bytecnt_eq_zero hc ha)
    obtain ⟨b, tl, rfl⟩ := List.exists_cons_of_ne_nil hne
    have hlt := ha.lt hc (by simp : b ∈ b :: tl)
    have hneed := total_need hc
    obtain ⟨s', p, l', h1, h2, h3, h4⟩ := @dequeLoop_spec _ _ _ _ hc ha hne hquantum
      (s.bytecnt + c.buckets_ + 1).toNat (by omega)
    rw [h1]
    exact ⟨s', some p, l', rfl, h2, h3, by simp, h4⟩

/-! ### Runs -/

theorem counts_new (c : DRRConfig π) : Counts c new where
  pkts _ := rfl
  bcount _ := rfl
  pktcnt := (Finset.sum_eq_zero fun _ _ => rfl).symm
  bytecnt := (Finset.sum_eq_zero fun _ _ => rfl).symm
  deficit _ := le_rfl
  pos := by simp [new]
  home := by simp [new]

theorem active_new : Active (new : DRR π) [] where
  ring := .nil
  curr := rfl
  active := by simp [new]
  flwcnt := rfl

/-- The packets that arrive for a bucket. -/
def arrivals (c : DRRConfig π) (b : ℕ) (ops : List (Op π)) : List π :=
  own c b (ops.filterMap fun op => match op with
    | .enque p => some p
    | .deque => none)

/-- The packets of a bucket that are dropped or returned. -/
def leavings (c : DRRConfig π) (b : ℕ) (os : List (List π × Option π)) : List π :=
  own c b (os.flatMap fun o => o.1 ++ o.2.toList)

/-- An arriving packet has a positive size and a bucket. -/
def Proper (c : DRRConfig π) : Op π → Prop
  | .enque p => 0 < c.size p ∧ ∃ b, bucket c p = some b
  | .deque => True

theorem run_step {s : DRR π} {is : List (Op π)} {os : List (List π × Option π)}
    (hquantum : 1 ≤ c.quantum_) (hlimit : 0 ≤ c.blimit_)
    (h : ∃ l, Counts c s ∧ Active s l ∧
      ∀ b, arrivals c b is = leavings c b os ++ (s.drr b).queue) {op : Op π} (hop : Proper c op) :
    ∃ s' o, step c s op = some (s', o) ∧ ∃ l, Counts c s' ∧ Active s' l ∧
      ∀ b, arrivals c b (is ++ [op]) = leavings c b (os ++ [o]) ++ (s'.drr b).queue := by
  obtain ⟨l, hc, ha, hall⟩ := h
  cases op with
  | enque p =>
    obtain ⟨hsize, b, hb⟩ := hop
    obtain ⟨s', D, l', h1, h2, h3, h4⟩ := enque_spec hc ha hlimit hb hsize
    refine ⟨s', (D, none), by rw [step, h1]; rfl, l', h2, h3, fun x => ?_⟩
    have h5 : arrivals c x (is ++ [.enque p]) = arrivals c x is ++ own c x [p] := by
      simp [arrivals, own]
    have h6 : leavings c x (os ++ [(D, none)]) = leavings c x os ++ own c x D := by
      simp [leavings, own]
    rw [h5, h6, hall, List.append_assoc, h4, List.append_assoc]
  | deque =>
    obtain ⟨s', o, l', h1, h2, h3, -, h4⟩ := deque_spec hc ha hquantum
    refine ⟨s', ([], o), by rw [step, h1]; rfl, l', h2, h3, fun x => ?_⟩
    have h5 : arrivals c x (is ++ [.deque]) = arrivals c x is := by simp [arrivals, own]
    have h6 : leavings c x (os ++ [([], o)]) = leavings c x os ++ own c x o.toList := by
      simp [leavings, own]
    rw [h5, h6, hall, h4, List.append_assoc]

theorem hash_of_input {p : π} (h0 : 0 ≤ if c.mask_ ≠ 0 then masked (c.saddr p) else c.saddr p)
    (h : (if c.mask_ ≠ 0 then masked (c.saddr p) else c.saddr p) +
      (if c.mask_ ≠ 0 then masked (c.saddr p) else c.saddr p) / 2 ^ 8 < 2 ^ 31) :
    ∃ i, hash c p = some i ∧ 0 ≤ i := by
  rw [hash]
  generalize (if c.mask_ ≠ 0 then masked (c.saddr p) else c.saddr p) = i at h0 h ⊢
  rw [if_pos ⟨by omega, h⟩]
  refine ⟨_, rfl, ?_⟩
  rcases lt_or_ge (i + i / 2 ^ 8 + (-(i / 2 ^ 4) - 1)) 0 with hneg | hpos
  · have he : i + i / 2 ^ 8 + (-(i / 2 ^ 4) - 1) = -1 := by omega
    rw [he]
    decide
  · have := Int.tmod_nonneg (2 ^ 24 - 1) hpos
    omega

theorem hash_of_nonneg {p : π} (h0 : 0 ≤ c.saddr p) (h : c.saddr p + c.saddr p / 2 ^ 8 < 2 ^ 31) :
    ∃ i, hash c p = some i ∧ 0 ≤ i := by
  apply hash_of_input
  · split_ifs
    · rw [masked]
      omega
    · exact h0
  · split_ifs
    · rw [masked]
      omega
    · exact h

/-- With a quantum, and a bucket for every arriving packet, the ring has the buckets that store
packets, each once, all counters are true, every bucket's packets leave in the order of their arrival,
and `deque` returns a packet whenever there is one. -/
theorem drr_keeps_flows (c : DRRConfig π) (hquantum : 1 ≤ c.quantum_) (hlimit : 0 ≤ c.blimit_)
    (hbuckets : 1 ≤ c.buckets_) {ops : List (Op π)}
    (hops : ∀ p, .enque p ∈ ops → 0 < c.size p ∧ ∃ i, hash c p = some i ∧ 0 ≤ i) :
    ∃ s os l, Machine.run (step c) new ops = some (s, os) ∧
      LinkRing (nexts s.drr) (prevs s.drr) l ∧ s.curr = l.head? ∧
      (∀ b, b ∈ l ↔ (s.drr b).queue ≠ []) ∧
      (∀ b, (s.drr b).pkts = (s.drr b).queue.length ∧ (s.drr b).bcount = bytes c (s.drr b).queue) ∧
      s.flwcnt = l.length ∧ s.pktcnt = total c (fun b => (s.drr b).queue.length) ∧
      s.bytecnt = total c (fun b => bytes c (s.drr b).queue) ∧
      (∀ b, arrivals c b ops = leavings c b os ++ (s.drr b).queue) ∧
      ∃ s' o, deque c s = some (s', o) ∧ (o = none ↔ ∀ b, (s.drr b).queue = []) := by
  have hproper : ∀ op ∈ ops, Proper c op := by
    intro op hop
    cases op with
    | deque => trivial
    | enque p =>
      obtain ⟨hsize, i, hi, h0⟩ := hops p hop
      refine ⟨hsize, (i.tmod c.buckets_).toNat, ?_⟩
      have hmod := Int.tmod_nonneg c.buckets_ h0
      rw [bucket, hi, Option.bind_some, if_neg (by omega)]
  have hstart : ∃ l, Counts c (new : DRR π) ∧ Active (new : DRR π) l ∧
      ∀ b, arrivals c b [] = leavings c b [] ++ ((new : DRR π).drr b).queue :=
    ⟨[], counts_new c, active_new, fun _ => rfl⟩
  obtain ⟨s, os, h1, l, hc, ha, hall⟩ := @Machine.run_history _ _ _ (step c) (fun _ op => Proper c op)
    (fun is os s => ∃ l, Counts c s ∧ Active s l ∧
      ∀ b, arrivals c b is = leavings c b os ++ (s.drr b).queue)
    (fun _ _ _ _ h hop => run_step hquantum hlimit h hop) _ _ hstart
    (Machine.admits_of_forall hproper _)
  obtain ⟨s', o, -, h2, -, -, h3, -⟩ := deque_spec hc ha hquantum
  refine ⟨s, os, l, h1, ha.ring, ha.curr, ha.active, fun b => ⟨hc.pkts b, hc.bcount b⟩, ha.flwcnt,
    hc.pktcnt, hc.bytecnt, hall, s', o, h2, h3.trans ?_⟩
  constructor
  · rintro rfl b
    by_contra hne
    cases (ha.active b).mpr hne
  · intro hq
    exact List.eq_nil_iff_forall_not_mem.mpr fun b hb => (ha.active b).mp hb (hq b)

/-- The default values of the bound variables, for packets that are a source address and a size. -/
def defaults : DRRConfig (ℤ × ℤ) where
  buckets_ := 10
  blimit_ := 25000
  quantum_ := 250
  mask_ := 0
  saddr := Prod.fst
  size := Prod.snd

theorem drr_keeps_flows_two :
    ∃ s os l, Machine.run (step defaults) new [.enque (3, 40), .enque (4, 1000), .deque] = some (s, os) ∧
      LinkRing (nexts s.drr) (prevs s.drr) l ∧ s.curr = l.head? ∧
      (∀ b, b ∈ l ↔ (s.drr b).queue ≠ []) ∧
      (∀ b, (s.drr b).pkts = (s.drr b).queue.length ∧
        (s.drr b).bcount = bytes defaults (s.drr b).queue) ∧
      s.flwcnt = l.length ∧ s.pktcnt = total defaults (fun b => (s.drr b).queue.length) ∧
      s.bytecnt = total defaults (fun b => bytes defaults (s.drr b).queue) ∧
      (∀ b, arrivals defaults b [.enque (3, 40), .enque (4, 1000), .deque] =
        leavings defaults b os ++ (s.drr b).queue) ∧
      ∃ s' o, deque defaults s = some (s', o) ∧ (o = none ↔ ∀ b, (s.drr b).queue = []) := by
  apply drr_keeps_flows defaults
  · decide
  · decide
  · decide
  · intro p hp
    have hp' : p = (3, 40) ∨ p = (4, 1000) := by simpa using hp
    rcases hp' with rfl | rfl
    · exact ⟨by decide, 3, by decide, by decide⟩
    · exact ⟨by decide, 4, by decide, by decide⟩

/-- The address -1 of an agent that is not attached has a negative hash: its packet is put in front
of the array of buckets. -/
theorem enque_outside : ¬ ∀ ops : List (Op (ℤ × ℤ)), (∀ p, .enque p ∈ ops → 0 < defaults.size p) →
    ∃ s os, Machine.run (step defaults) new ops = some (s, os) := by
  intro h
  obtain ⟨s, os, hs⟩ := h [.enque (-1, 40)] (by
    intro p hp
    obtain rfl : p = (-1, 40) := by simpa using hp
    decide)
  have hb : bucket defaults (-1, 40) = none := by decide
  have hnone : step defaults new (.enque (-1, 40)) = none := by
    rw [step, enque, hb]
    rfl
  rw [Machine.run_cons_none hnone] at hs
  cases hs

end Ns2.DRR
