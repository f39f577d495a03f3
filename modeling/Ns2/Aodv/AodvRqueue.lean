import Ns2.Lib.Machine
import Ns2.Lib.NextPointers

/-! The queue of packets that wait for a route. -/

namespace Ns2

def AODV_RTQ_MAX_LEN : ℤ := 64

def AODV_RTQ_TIMEOUT : ℚ := 30

/-- The queue with the fields of the packets that it writes. -/
structure AodvRqueue (π : Type) where
  next_ : π → Option π
  ts_ : π → ℚ
  head_ : Option π
  tail_ : Option π
  len_ : ℤ

/-- `DROP_RTR_QFULL` and `DROP_RTR_QTIMEOUT`. -/
inductive RqueueDrop
  | full
  | timeout
  deriving DecidableEq

namespace AodvRqueue

variable {π : Type}

/-- The loop of `findPacketWithDst` and `findAgedPacket`: the packet and the one before it. -/
def search (q : AodvRqueue π) (stop : π → Prop) [DecidablePred stop] :
    ℕ → Option π → Option π → Option (Option π × Option π)
  | 0, _, _ => none
  | _ + 1, none, prev => some (none, prev)
  | fuel + 1, some p, prev =>
    if stop p then some (some p, prev) else q.search stop fuel (q.next_ p) (some p)

/-- Enough rounds for a queue of `len_` packets. -/
def rounds (q : AodvRqueue π) : ℕ := q.len_.toNat + 1

/-- The packets and the last of them, counted by `verifyQueue`. -/
def count (q : AodvRqueue π) : ℕ → Option π → Option π → Option (ℤ × Option π)
  | 0, _, _ => none
  | _ + 1, none, prev => some (0, prev)
  | fuel + 1, some p, _ => (q.count fuel (q.next_ p) (some p)).map fun c => (c.1 + 1, c.2)

section operations

variable [DecidableEq π]

def remove_head (q : AodvRqueue π) : Option (AodvRqueue π × Option π) :=
  match q.head_ with
  | none => if q.tail_ = none then some (q, none) else none
  | some p =>
    if q.tail_ = some p then
      some ({ q with
        head_ := none
        tail_ := none
        len_ := q.len_ - 1 }, some p)
    else some ({ q with
        head_ := q.next_ p
        len_ := q.len_ - 1 }, some p)

def verifyQueue (q : AodvRqueue π) : Option (AodvRqueue π) :=
  if q.count q.rounds q.head_ none = some (q.len_, q.tail_) then some q else none

/-- What `deque` and `purge` do with the packet that they have found. -/
def takeOut (q : AodvRqueue π) (p : π) (prev : Option π) : Option (AodvRqueue π) :=
  if q.head_ = some p ∧ prev = none then q.remove_head.map Prod.fst
  else prev.bind fun b =>
    if q.next_ b ≠ some p then none
    else if q.head_ = some p then q.remove_head.map Prod.fst
    else if q.tail_ = some p then
      some { q with
        next_ := Function.update q.next_ b none
        tail_ := some b
        len_ := q.len_ - 1 }
    else
      some { q with
        next_ := Function.update q.next_ b (q.next_ p)
        len_ := q.len_ - 1 }

/-- `findAgedPacket`, `takeOut` and `verifyQueue`, until no packet is found. -/
def purgeLoop (now : ℚ) : ℕ → AodvRqueue π → Option (AodvRqueue π)
  | 0, _ => none
  | fuel + 1, q =>
    (q.search (fun p => q.ts_ p < now) q.rounds q.head_ none).bind fun r =>
      match r.1 with
      | none => some q
      | some p => (q.takeOut p r.2).bind fun q => q.verifyQueue.bind (purgeLoop now fuel)

def purge (q : AodvRqueue π) (now : ℚ) : Option (AodvRqueue π) := purgeLoop now q.rounds q

/-- The end of `enque`. -/
def append (q : AodvRqueue π) (p : π) : Option (AodvRqueue π) :=
  match q.head_ with
  | none => some { q with
      head_ := some p
      tail_ := some p
      len_ := q.len_ + 1 }
  | some _ => q.tail_.map fun t => { q with
      next_ := Function.update q.next_ t (some p)
      tail_ := some p
      len_ := q.len_ + 1 }

/-- The queue, and the packets that are dropped. -/
def enque (q : AodvRqueue π) (p : π) (now : ℚ) :
    Option (AodvRqueue π × List (π × RqueueDrop)) := do
  let q ← q.purge now
  let q := { q with
    next_ := Function.update q.next_ p none
    ts_ := Function.update q.ts_ p (now + AODV_RTQ_TIMEOUT) }
  if q.len_ = AODV_RTQ_MAX_LEN then
    let r ← q.remove_head
    let p0 ← r.2
    let q ← (← r.1.append p).verifyQueue
    return (q, [(p0, if q.ts_ p0 > now then .full else .timeout)])
  else
    let q ← (← q.append p).verifyQueue
    return (q, [])

def deque (q : AodvRqueue π) (now : ℚ) : Option (AodvRqueue π × Option π) := do
  let q ← q.purge now
  let r ← q.remove_head
  let q ← r.1.verifyQueue
  return (q, r.2)

def dequeDst (daddr : π → ℤ) (q : AodvRqueue π) (dst : ℤ) (now : ℚ) :
    Option (AodvRqueue π × Option π) := do
  let q ← q.purge now
  let r ← q.search (fun p => daddr p = dst) q.rounds q.head_ none
  match r.1 with
  | none => return (q, none)
  | some p =>
    let q ← (← q.takeOut p r.2).verifyQueue
    return (q, some p)

def find (daddr : π → ℤ) (q : AodvRqueue π) (dst : ℤ) : Option Bool :=
  (q.search (fun p => daddr p = dst) q.rounds q.head_ none).map fun r => r.1.isSome

end operations



open NextPointers

/-- `head_`, `tail_`, `len_` and the links describe the list, in which each packet is once. -/
structure Stores (q : AodvRqueue π) (l : List π) : Prop where
  nodup : l.Nodup
  reaches : Reaches q.next_ none q.head_ l
  tail : q.tail_ = l.getLast?
  len : q.len_ = l.length

section scans

variable {q : AodvRqueue π} {stop : π → Prop} [DecidablePred stop]

theorem search_found {M R : List π} {a : π} (hM : ∀ x ∈ M, ¬ stop x) (ha : stop a) {fuel : ℕ}
    (hfuel : M.length < fuel) {k : Option π} (h : Reaches q.next_ none k (M ++ a :: R))
    (prev : Option π) :
    q.search stop fuel k prev = some (some a, M.getLast?.or prev) := by
  induction M generalizing fuel k prev with
  | nil =>
    obtain ⟨rfl, -⟩ := h
    obtain ⟨fuel, rfl⟩ := Nat.exists_eq_add_of_le' hfuel
    simp [search, ha]
  | cons b M ih =>
    obtain ⟨rfl, h⟩ := h
    obtain ⟨fuel, rfl⟩ := Nat.exists_eq_add_of_le' (Nat.zero_lt_of_lt hfuel)
    have hb : ¬ stop b := hM b List.mem_cons_self
    rw [search, if_neg hb,
      ih (fun x hx => hM x (List.mem_cons_of_mem b hx)) (by simpa using hfuel) h,
      List.getLast?_cons]
    cases M.getLast? <;> rfl

theorem search_none {l : List π} (hl : ∀ x ∈ l, ¬ stop x) {fuel : ℕ} (hfuel : l.length < fuel)
    {k : Option π} (h : Reaches q.next_ none k l) (prev : Option π) :
    q.search stop fuel k prev = some (none, l.getLast?.or prev) := by
  induction l generalizing fuel k prev with
  | nil =>
    obtain rfl : k = none := h
    obtain ⟨fuel, rfl⟩ := Nat.exists_eq_add_of_le' hfuel
    rfl
  | cons b l ih =>
    obtain ⟨rfl, h⟩ := h
    obtain ⟨fuel, rfl⟩ := Nat.exists_eq_add_of_le' (Nat.zero_lt_of_lt hfuel)
    have hb : ¬ stop b := hl b List.mem_cons_self
    rw [search, if_neg hb,
      ih (fun x hx => hl x (List.mem_cons_of_mem b hx)) (by simpa using hfuel) h,
      List.getLast?_cons]
    cases l.getLast? <;> rfl

theorem search_total {l : List π} {fuel : ℕ} {k : Option π}
    (hfuel : l.length < fuel) (h : Reaches q.next_ none k l) (prev : Option π) :
    ∃ r, q.search stop fuel k prev = some r := by
  induction l generalizing fuel k prev with
  | nil =>
    obtain rfl : k = none := h
    obtain ⟨fuel, rfl⟩ := Nat.exists_eq_add_of_le' hfuel
    exact ⟨_, rfl⟩
  | cons b l ih =>
    obtain ⟨rfl, h⟩ := h
    obtain ⟨fuel, rfl⟩ := Nat.exists_eq_add_of_le' (Nat.zero_lt_of_lt hfuel)
    rw [search]
    split_ifs
    · exact ⟨_, rfl⟩
    · exact ih (by simpa using hfuel) h _

theorem count_eq {l : List π} {fuel : ℕ} (hfuel : l.length < fuel) {k : Option π}
    (h : Reaches q.next_ none k l) (prev : Option π) :
    q.count fuel k prev = some ((l.length : ℤ), l.getLast?.or prev) := by
  induction l generalizing fuel k prev with
  | nil =>
    obtain rfl : k = none := h
    obtain ⟨fuel, rfl⟩ := Nat.exists_eq_add_of_le' hfuel
    rfl
  | cons b l ih =>
    obtain ⟨rfl, h⟩ := h
    obtain ⟨fuel, rfl⟩ := Nat.exists_eq_add_of_le' (Nat.zero_lt_of_lt hfuel)
    rw [count, ih (by simpa using hfuel) h, List.getLast?_cons]
    cases l.getLast? <;> rfl

end scans

theorem Stores.rounds {q : AodvRqueue π} {l : List π} (h : Stores q l) : l.length < q.rounds := by
  rw [AodvRqueue.rounds, h.len]
  omega

theorem Stores.find {q : AodvRqueue π} {l : List π} (h : Stores q l) (daddr : π → ℤ) (dst : ℤ) :
    ∃ b, q.find daddr dst = some b := by
  obtain ⟨r, hr⟩ : ∃ r, q.search (fun p => daddr p = dst) q.rounds q.head_ none = some r :=
    search_total h.rounds h.reaches none
  exact ⟨_, by rw [AodvRqueue.find, hr]; rfl⟩

theorem getLast_eq_iff {a : π} {R : List π} (hnd : (a :: R).Nodup) :
    (a :: R).getLast? = some a ↔ R = [] := by
  constructor
  · intro hlast
    by_contra hne
    have hmem : a ∈ R := by
      rw [List.getLast?_cons_of_ne_nil hne] at hlast
      exact List.mem_of_getLast? hlast
    exact (List.nodup_cons.mp hnd).1 hmem
  · rintro rfl
    rfl

section spec

variable [DecidableEq π] {q : AodvRqueue π} {l L R : List π} {a : π}

theorem Stores.verify (h : Stores q l) : q.verifyQueue = some q := by
  rw [verifyQueue, count_eq h.rounds h.reaches, h.len, h.tail, Option.or_none, if_pos rfl]

theorem Stores.remove_head_nil (h : Stores q []) : q.remove_head = some (q, none) := by
  have hhead : q.head_ = none := h.reaches
  rw [remove_head, hhead]
  exact if_pos h.tail

theorem Stores.remove_head_cons (h : Stores q (a :: R)) :
    ∃ q', q.remove_head = some (q', some a) ∧ Stores q' R ∧ q'.ts_ = q.ts_ ∧
      q'.next_ = q.next_ := by
  obtain ⟨hhead, hrest⟩ := h.reaches
  have hR := (List.nodup_cons.mp h.nodup).2
  have hlen : q.len_ - 1 = R.length := by
    rw [h.len, List.length_cons]
    omega
  rw [remove_head, hhead]
  simp only [h.tail, getLast_eq_iff h.nodup]
  by_cases hnil : R = []
  · subst hnil
    exact ⟨_, if_pos rfl, ⟨hR, rfl, rfl, hlen⟩, rfl, rfl⟩
  · rw [if_neg hnil]
    exact ⟨_, rfl, ⟨hR, hrest, List.getLast?_cons_of_ne_nil hnil, hlen⟩, rfl, rfl⟩

theorem Stores.takeOut (h : Stores q (L ++ a :: R)) :
    ∃ q', q.takeOut a L.getLast? = some q' ∧ Stores q' (L ++ R) ∧ q'.ts_ = q.ts_ := by
  rcases List.eq_nil_or_concat L with rfl | ⟨L, b, rfl⟩
  · obtain ⟨q', hq', hs, hts, -⟩ := h.remove_head_cons
    refine ⟨q', ?_, hs, hts⟩
    rw [AodvRqueue.takeOut, if_pos ⟨h.reaches.1, rfl⟩, hq']
    rfl
  · rw [List.concat_eq_append, List.append_assoc, List.singleton_append] at h
    have hnd := h.nodup
    obtain ⟨k, hL, hk, hb, hR⟩ := reaches_append.mp h.reaches
    have hhead : q.head_ ≠ some a := by
      rw [h.reaches.head]
      intro he
      cases L with
      | nil =>
        obtain rfl := Option.some.inj he
        exact (List.nodup_cons.mp hnd).1 List.mem_cons_self
      | cons c L =>
        obtain rfl := Option.some.inj he
        exact (List.nodup_cons.mp hnd).1 (by simp)
    have hlen : q.len_ - 1 = (L ++ b :: R).length := by
      rw [h.len]
      simp
      omega
    have hlast : q.tail_ = some a ↔ R = [] := by
      have hend : (L ++ b :: a :: R).getLast? = (a :: R).getLast? := by
        simp [List.getLast?_append, List.getLast?_cons]
      rw [h.tail, hend]
      exact getLast_eq_iff (List.nodup_cons.mp (List.nodup_append.mp hnd).2.1).2
    have hunlink := h.reaches.unlink hnd
    have hsub : (L ++ b :: R).Nodup := hnd.sublist (by simp)
    rw [List.concat_eq_append, List.getLast?_concat, List.append_assoc, List.singleton_append,
      AodvRqueue.takeOut, if_neg (by simp), Option.bind_some, if_neg (not_not.mpr hb),
      if_neg hhead]
    simp only [hlast]
    by_cases hR' : R = []
    · subst hR'
      have hnext : q.next_ a = none := hR
      rw [hnext] at hunlink
      exact ⟨_, if_pos rfl, ⟨hsub, hunlink, by simp, hlen⟩, rfl⟩
    · refine ⟨_, if_neg hR', ⟨hsub, hunlink, ?_, hlen⟩, rfl⟩
      have hend : (L ++ b :: a :: R).getLast? = (L ++ b :: R).getLast? := by
        obtain ⟨c, hc⟩ := Option.ne_none_iff_exists'.mp (mt List.getLast?_eq_none_iff.mp hR')
        simp [List.getLast?_append, List.getLast?_cons, hc]
      exact h.tail.trans hend

/-- The packets that have not timed out. -/
def fresh (q : AodvRqueue π) (now : ℚ) (l : List π) : List π := l.filter fun p => now ≤ q.ts_ p

theorem Stores.purgeLoop {now : ℚ} {fuel : ℕ} (h : Stores q l)
    (hfuel : (l.filter fun p => q.ts_ p < now).length < fuel) :
    ∃ q', purgeLoop now fuel q = some q' ∧ Stores q' (q.fresh now l) ∧ q'.ts_ = q.ts_ := by
  induction fuel generalizing q l with
  | zero => omega
  | succ fuel ih =>
    rw [AodvRqueue.purgeLoop]
    by_cases hall : ∀ p ∈ l, ¬ q.ts_ p < now
    · have hfresh : q.fresh now l = l := by
        rw [fresh, List.filter_eq_self]
        exact fun p hp => decide_eq_true (not_lt.mp (hall p hp))
      rw [search_none hall h.rounds h.reaches]
      exact ⟨q, rfl, by rwa [hfresh], rfl⟩
    · push Not at hall
      obtain ⟨p, hp, haged⟩ := hall
      obtain ⟨L, a, R, rfl, hL, ha⟩ : ∃ L a R, l = L ++ a :: R ∧ (∀ x ∈ L, ¬ q.ts_ x < now) ∧
          q.ts_ a < now := by
        have hsome : (l.find? fun p => q.ts_ p < now).isSome :=
          List.find?_isSome.mpr ⟨p, hp, by simpa using haged⟩
        obtain ⟨a, hfind⟩ := Option.isSome_iff_exists.mp hsome
        obtain ⟨ha, L, R, hl, hL⟩ := List.find?_eq_some_iff_append.mp hfind
        exact ⟨L, a, R, hl, by simpa using hL, by simpa using ha⟩
      have hlt : L.length < q.rounds := by
        have := h.rounds
        rw [List.length_append] at this
        omega
      obtain ⟨q', hq', hs, hts⟩ := h.takeOut
      have hcount : ((L ++ R).filter fun p => q'.ts_ p < now).length < fuel := by
        rw [hts]
        simp only [List.filter_append, List.length_append, List.filter_cons, decide_eq_true ha,
          if_true, List.length_cons] at hfuel ⊢
        omega
      obtain ⟨q'', hq'', hs'', hts''⟩ := ih hs hcount
      have hfresh : q'.fresh now (L ++ R) = q.fresh now (L ++ a :: R) := by
        simp only [fresh, hts, List.filter_append, List.filter_cons,
          decide_eq_false (not_le.mpr ha), Bool.false_eq_true, if_false]
      rw [search_found hL ha hlt h.reaches none, Option.bind_some, Option.or_none]
      dsimp only
      rw [hq', Option.bind_some, hs.verify, Option.bind_some]
      exact ⟨q'', hq'', hfresh ▸ hs'', hts''.trans hts⟩

theorem Stores.purge (h : Stores q l) (now : ℚ) :
    ∃ q', q.purge now = some q' ∧ Stores q' (q.fresh now l) ∧ q'.ts_ = q.ts_ :=
  h.purgeLoop ((List.length_filter_le _ _).trans_lt h.rounds)

/-- The writes to the fields of a packet that is not in the queue. -/
theorem Stores.stamp {p : π} (h : Stores q l) (hp : p ∉ l) (t : ℚ) :
    Stores { q with
      next_ := Function.update q.next_ p none
      ts_ := Function.update q.ts_ p t } l where
  nodup := h.nodup
  reaches := h.reaches.congr fun a ha => by
    have hne : a ≠ p := fun he => hp (he ▸ ha)
    exact Function.update_of_ne hne _ _
  tail := h.tail
  len := h.len

theorem Stores.append {p : π} (h : Stores q l) (hp : p ∉ l) (hnext : q.next_ p = none) :
    ∃ q', q.append p = some q' ∧ Stores q' (l ++ [p]) := by
  have hnd : (l ++ [p]).Nodup := by
    rw [List.nodup_append]
    exact ⟨h.nodup, by simp, fun a ha b hb => by rintro rfl; simp at hb; exact hp (hb ▸ ha)⟩
  have hlen : q.len_ + 1 = (l ++ [p]).length := by
    rw [h.len, List.length_append, List.length_singleton]
    push_cast
    rfl
  rcases List.eq_nil_or_concat l with rfl | ⟨L, b, rfl⟩
  · have hhead : q.head_ = none := h.reaches
    rw [AodvRqueue.append, hhead]
    exact ⟨_, rfl, hnd, ⟨rfl, hnext⟩, rfl, hlen⟩
  · rw [List.concat_eq_append] at *
    have hhead : ∃ c, q.head_ = some c := by
      rw [h.reaches.head]
      cases L <;> exact ⟨_, rfl⟩
    obtain ⟨c, hc⟩ := hhead
    have htail : q.tail_ = some b := by
      rw [h.tail, List.getLast?_concat]
    have hlinks := h.reaches.concat h.nodup hp
    have hsame : Function.update q.next_ p none = q.next_ := by
      rw [← hnext, Function.update_eq_self]
    rw [hsame, hc] at hlinks
    rw [AodvRqueue.append, hc]
    dsimp only
    rw [htail]
    exact ⟨_, rfl, hnd, by simpa [hc] using hlinks, by simp, hlen⟩

theorem Stores.enque {p : π} (h : Stores q l) (now : ℚ) (hp : p ∉ l) :
    ∃ q' l' dropped, q.enque p now = some (q', dropped) ∧ Stores q' l' ∧
      (q.fresh now l ++ [p]).Perm (l' ++ dropped.map Prod.fst) := by
  obtain ⟨q₁, h₁, hs₁, -⟩ := h.purge now
  have hp₁ : p ∉ q.fresh now l := fun hmem => hp (List.mem_of_mem_filter hmem)
  have hs₂ := hs₁.stamp hp₁ (now + AODV_RTQ_TIMEOUT)
  simp only [AodvRqueue.enque, h₁, Option.bind_eq_bind, Option.bind_some]
  generalize q.fresh now l = m at hs₂ hp₁ ⊢
  split_ifs with hfull
  · cases m with
    | nil =>
      rw [hs₂.len] at hfull
      cases hfull
    | cons a R =>
      obtain ⟨q₃, h₃, hs₃, -, hn₃⟩ := hs₂.remove_head_cons
      obtain ⟨q₄, h₄, hs₄⟩ := hs₃.append (fun hmem => hp₁ (List.mem_cons_of_mem a hmem))
        (by rw [hn₃]; exact Function.update_self ..)
      simp only [h₃, h₄, hs₄.verify, Option.bind_some]
      refine ⟨q₄, _, _, rfl, hs₄, ?_⟩
      simpa using (List.perm_append_singleton a (R ++ [p])).symm
  · obtain ⟨q₄, h₄, hs₄⟩ := hs₂.append hp₁ (Function.update_self ..)
    simp only [h₄, hs₄.verify, Option.bind_some]
    exact ⟨q₄, _, _, rfl, hs₄, by simp⟩

theorem Stores.deque (h : Stores q l) (now : ℚ) :
    ∃ q' l' o, q.deque now = some (q', o) ∧ Stores q' l' ∧
      (q.fresh now l).Perm (l' ++ o.toList) := by
  obtain ⟨q₁, h₁, hs₁, -⟩ := h.purge now
  simp only [AodvRqueue.deque, h₁, Option.bind_eq_bind, Option.bind_some]
  generalize q.fresh now l = m at hs₁ ⊢
  cases m with
  | nil =>
    simp only [hs₁.remove_head_nil, hs₁.verify, Option.bind_some]
    exact ⟨q₁, [], none, rfl, hs₁, .refl _⟩
  | cons a R =>
    obtain ⟨q₂, h₂, hs₂, -⟩ := hs₁.remove_head_cons
    simp only [h₂, hs₂.verify, Option.bind_some]
    exact ⟨q₂, R, some a, rfl, hs₂, (List.perm_append_singleton a R).symm⟩

theorem Stores.dequeDst (h : Stores q l) (daddr : π → ℤ) (dst : ℤ) (now : ℚ) :
    ∃ q' l' o, q.dequeDst daddr dst now = some (q', o) ∧ Stores q' l' ∧
      (q.fresh now l).Perm (l' ++ o.toList) := by
  obtain ⟨q₁, h₁, hs₁, -⟩ := h.purge now
  simp only [AodvRqueue.dequeDst, h₁, Option.bind_eq_bind, Option.bind_some]
  generalize q.fresh now l = m at hs₁ ⊢
  by_cases hall : ∀ p ∈ m, ¬ daddr p = dst
  · rw [search_none hall hs₁.rounds hs₁.reaches, Option.bind_some]
    exact ⟨q₁, m, none, rfl, hs₁, by simp⟩
  · push Not at hall
    obtain ⟨p, hp, hdst⟩ := hall
    have hsome : (m.find? fun p => daddr p = dst).isSome :=
      List.find?_isSome.mpr ⟨p, hp, by simpa using hdst⟩
    obtain ⟨a, hfind⟩ := Option.isSome_iff_exists.mp hsome
    obtain ⟨ha, L, R, rfl, hL⟩ := List.find?_eq_some_iff_append.mp hfind
    have hlt : L.length < q₁.rounds := by
      have := hs₁.rounds
      rw [List.length_append] at this
      omega
    obtain ⟨q₂, h₂, hs₂, -⟩ := hs₁.takeOut
    have hL' : ∀ x ∈ L, ¬ daddr x = dst := by simpa using hL
    have ha' : daddr a = dst := by simpa using ha
    rw [search_found hL' ha' hlt hs₁.reaches none, Option.bind_some, Option.or_none]
    dsimp only
    rw [h₂, Option.bind_some, hs₂.verify]
    exact ⟨q₂, L ++ R, some a, rfl, hs₂,
      List.perm_middle.trans (List.perm_append_singleton a (L ++ R)).symm⟩

end spec

/-- The calls of the queue, each at its time. -/
inductive Call (π : Type)
  | enque (p : π)
  | deque
  | dequeDst (dst : ℤ)
  | find (dst : ℤ)
  | purge

/-- The queue, with the packets that were put into it, returned by it and dropped by it. -/
structure Account (π : Type) where
  queue : AodvRqueue π
  enqueued : List π
  returned : List π
  dropped : List π

/-- The queue as it is constructed. -/
def start : Account π := ⟨⟨fun _ => none, fun _ => 0, none, none, 0⟩, [], [], []⟩

/-- `head_`, `tail_` and `len_` describe a list. -/
def Describes (s : Account π) : Prop := ∃ l, Stores s.queue l

/-- Every packet that was put into the queue is still in it, or was returned, or was dropped. -/
def Accounted (s : Account π) : Prop :=
  ∃ l, Stores s.queue l ∧ s.enqueued.Perm (l ++ s.returned ++ s.dropped)

/-- A packet is not put into the queue while it is in it. -/
def Owned (s : Account π) (c : Call π × ℚ) : Prop :=
  ∀ p, c.1 = .enque p → ∀ l, Stores s.queue l → p ∉ l

/-- No packet of the queue has timed out when the call purges it. -/
def NoneAged (s : Account π) (c : Call π × ℚ) : Prop :=
  (∃ dst, c.1 = .find dst) ∨ ∀ l, Stores s.queue l → ∀ p ∈ l, ¬ s.queue.ts_ p < c.2

/-- From `s` to `s'` the packets of `l` and those put into the queue end up in `l'`, or returned, or
dropped. -/
def Moved (s s' : Account π) (l l' : List π) : Prop :=
  ∃ e r d, s'.enqueued = s.enqueued ++ e ∧ s'.returned = s.returned ++ r ∧
    s'.dropped = s.dropped ++ d ∧ (l ++ e).Perm (l' ++ r ++ d)

/-- What a call leaves of the list before it does anything else. -/
def kept (s : Account π) (c : Call π × ℚ) (l : List π) : List π :=
  match c.1 with
  | .find _ => l
  | _ => s.queue.fresh c.2 l

theorem Moved.not_perm {s s' : Account π} {l k l' : List π} (h : Moved s s' k l')
    (hp : s.enqueued.Perm (l ++ s.returned ++ s.dropped)) (hlt : k.length < l.length) :
    ¬ s'.enqueued.Perm (l' ++ s'.returned ++ s'.dropped) := by
  obtain ⟨e, r, d, he, hr, hd, hperm⟩ := h
  intro hp'
  have h₁ := hp.length_eq
  have h₂ := hp'.length_eq
  have h₃ := hperm.length_eq
  simp only [he, hr, hd, List.length_append] at h₁ h₂ h₃
  omega

theorem kept_of_noneAged {s : Account π} {c : Call π × ℚ} {l : List π} (h : Stores s.queue l)
    (hok : NoneAged s c) : kept s c l = l := by
  have hfresh : (∀ dst, c.1 ≠ .find dst) → s.queue.fresh c.2 l = l := by
    intro hno
    rcases hok with ⟨dst, hdst⟩ | hall
    · exact absurd hdst (hno dst)
    · rw [fresh, List.filter_eq_self]
      exact fun p hp => decide_eq_true (not_lt.mp (hall l h p hp))
  obtain ⟨call, now⟩ := c
  cases call with
  | find dst => rfl
  | enque p => exact hfresh (by simp)
  | deque => exact hfresh (by simp)
  | dequeDst dst => exact hfresh (by simp)
  | purge => exact hfresh (by simp)

theorem Stores.unique {q : AodvRqueue π} {l l' : List π} (h : Stores q l) (h' : Stores q l') :
    l = l' :=
  h.reaches.unique h'.reaches

theorem kept_of_aged {s : Account π} {c : Call π × ℚ} {l : List π} (h : Stores s.queue l)
    (hno : ¬ NoneAged s c) : (kept s c l).length < l.length := by
  simp only [NoneAged, not_or, not_exists, not_forall, not_not] at hno
  obtain ⟨hcall, l', hl', p, hp, haged⟩ := hno
  obtain rfl := h.unique hl'
  have hfresh : (s.queue.fresh c.2 l).length < l.length :=
    List.length_filter_lt_length_iff_exists.mpr ⟨p, hp, by simpa using haged⟩
  obtain ⟨call, now⟩ := c
  cases call with
  | find dst => exact absurd rfl (hcall dst)
  | enque p => exact hfresh
  | deque => exact hfresh
  | dequeDst dst => exact hfresh
  | purge => exact hfresh

section runs

variable [DecidableEq π] (daddr : π → ℤ)

def step (s : Account π) (c : Call π × ℚ) : Option (Account π × Option π) :=
  match c.1 with
  | .enque p => (s.queue.enque p c.2).map fun r => ({ s with
      queue := r.1
      enqueued := s.enqueued ++ [p]
      dropped := s.dropped ++ r.2.map Prod.fst }, none)
  | .deque => (s.queue.deque c.2).map fun r => ({ s with
      queue := r.1
      returned := s.returned ++ r.2.toList }, r.2)
  | .dequeDst dst => (s.queue.dequeDst daddr dst c.2).map fun r => ({ s with
      queue := r.1
      returned := s.returned ++ r.2.toList }, r.2)
  | .find dst => (s.queue.find daddr dst).map fun _ => (s, none)
  | .purge => (s.queue.purge c.2).map fun q => ({ s with queue := q }, none)

variable {daddr}

theorem step_spec {s : Account π} {c : Call π × ℚ} {l : List π} (h : Stores s.queue l)
    (hown : Owned s c) :
    ∃ s' o l', step daddr s c = some (s', o) ∧ Stores s'.queue l' ∧ Moved s s' (kept s c l) l' := by
  obtain ⟨call, now⟩ := c
  cases call with
  | enque p =>
    obtain ⟨q', l', d, hq', hs', hperm⟩ := h.enque now (hown p rfl l h)
    exact ⟨_, none, l', by rw [step]; simp only [hq']; rfl, hs', [p], [], d.map Prod.fst, rfl,
      by simp, rfl, by simpa [kept] using hperm⟩
  | deque =>
    obtain ⟨q', l', o, hq', hs', hperm⟩ := h.deque now
    exact ⟨_, o, l', by rw [step]; simp only [hq']; rfl, hs', [], o.toList, [], by simp, rfl,
      by simp, by simpa [kept] using hperm⟩
  | dequeDst dst =>
    obtain ⟨q', l', o, hq', hs', hperm⟩ := h.dequeDst daddr dst now
    exact ⟨_, o, l', by rw [step]; simp only [hq']; rfl, hs', [], o.toList, [], by simp, rfl,
      by simp, by simpa [kept] using hperm⟩
  | find dst =>
    obtain ⟨b, hb⟩ := h.find daddr dst
    exact ⟨s, none, l, by rw [step]; simp only [hb]; rfl, h, [], [], [], by simp, by simp,
      by simp, by simp [kept]⟩
  | purge =>
    obtain ⟨q', hq', hs', -⟩ := h.purge now
    exact ⟨_, none, _, by rw [step]; simp only [hq']; rfl, hs', [], [], [], by simp, by simp,
      by simp, by simp [kept]⟩

theorem Moved.perm {s s' : Account π} {l l' : List π} (h : Moved s s' l l')
    (hp : s.enqueued.Perm (l ++ s.returned ++ s.dropped)) :
    s'.enqueued.Perm (l' ++ s'.returned ++ s'.dropped) := by
  obtain ⟨e, r, d, he, hr, hd, hperm⟩ := h
  rw [List.perm_iff_count] at hp hperm ⊢
  intro a
  have hpa := hp a
  have hma := hperm a
  simp only [he, hr, hd, List.count_append] at hpa hma ⊢
  omega

/-- `head_`, `tail_` and `len_` describe the list in every run, and every packet is accounted for
exactly in the runs in which no purge finds a packet that has timed out. -/
theorem rqueue_accounts_iff {cs : List (Call π × ℚ)}
    (hown : Machine.Admits (step daddr) Owned start cs) :
    Machine.Always (step daddr) Describes start cs ∧
      (Machine.Always (step daddr) Accounted start cs ↔
        Machine.Admits (step daddr) NoneAged start cs) := by
  have hstart : Stores (start (π := π)).queue [] := ⟨List.nodup_nil, rfl, rfl, rfl⟩
  constructor
  · refine Machine.always_of_admits (fun _ h => h) ?_ ⟨[], hstart⟩ hown (Machine.admits_true _ _ _)
    rintro s c ⟨l, hl⟩ hc -
    obtain ⟨s', o, l', hs', hl', -⟩ := step_spec hl hc
    exact ⟨s', o, hs', l', hl'⟩
  · refine Machine.always_iff_of_admits (fun _ h => h) ?_ ?_ ⟨[], hstart, .refl _⟩ hown
    · rintro s c ⟨l, hl, hp⟩ hc hok
      obtain ⟨s', o, l', hs', hl', hm⟩ := step_spec hl hc
      rw [kept_of_noneAged hl hok] at hm
      exact ⟨s', o, hs', l', hl', hm.perm hp⟩
    · rintro s c s' o ⟨l, hl, hp⟩ hc hno hs' ⟨l'', hl'', hp''⟩
      obtain ⟨s₁, o₁, l', hs₁, hl', hm⟩ := step_spec hl hc
      obtain ⟨rfl, -⟩ := Prod.mk.inj (Option.some.inj (hs'.symm.trans hs₁))
      obtain rfl := hl'.unique hl''
      exact hm.not_perm hp (kept_of_aged hl hno) hp''

end runs

/-- One packet is put into the queue and asked for at time `t`. -/
def oneCall (t : ℚ) : List (Call ℕ × ℚ) := [(.enque 0, 0), (.deque, t)]

theorem owned_oneCall (t : ℚ) : Machine.Admits (step fun _ => 0) Owned start (oneCall t) := by
  refine ⟨?_, fun s o _ => ⟨?_, fun _ _ _ => trivial⟩⟩
  · rintro p - l hl
    obtain rfl : l = [] := hl.unique ⟨List.nodup_nil, rfl, rfl, rfl⟩
    simp
  · rintro p hp
    cases hp

theorem oneCall_accounts :
    Machine.Always (step fun _ => 0) Describes start (oneCall 1) ∧
      (Machine.Always (step fun _ => 0) Accounted start (oneCall 1) ↔
        Machine.Admits (step fun _ => 0) NoneAged start (oneCall 1)) :=
  rqueue_accounts_iff (owned_oneCall 1)

/-- A packet that has waited for 31 seconds is neither returned nor dropped. -/
theorem aged_packet_lost : ¬ ∀ cs : List (Call ℕ × ℚ),
    Machine.Admits (step fun _ => 0) Owned start cs →
      Machine.Always (step fun _ => 0) Accounted start cs := by
  intro h
  obtain ⟨s, os, hrun, l, hl, hp⟩ := (h (oneCall 31) (owned_oneCall 31)).run
  have hlost : (Machine.run (step fun _ => 0) start (oneCall 31)).map (fun r =>
      (r.1.queue.head_, r.1.enqueued, r.1.returned, r.1.dropped)) =
      some (none, [0], [], []) := by
    decide +kernel
  rw [hrun] at hlost
  obtain ⟨hhead, he, hr, hd⟩ := (by simpa using hlost :
    s.queue.head_ = none ∧ s.enqueued = [0] ∧ s.returned = [] ∧ s.dropped = [])
  have hnil : l = [] := by
    have := hl.reaches
    rw [hhead] at this
    exact this.unique (show NextPointers.Reaches _ none none [] from rfl)
  rw [he, hr, hd, hnil] at hp
  exact absurd hp.length_eq (by decide)

end AodvRqueue

end Ns2
