import Ns2.Queue.Sfq

/-! The rounds of stochastic fair queueing: the ring holds the buckets that store packets, in the
order in which they are served, and a bucket's packets leave in the order of their arrival. -/

namespace Ns2.SFQ

variable {π : Type}

/-! ### The ring -/

/-- The links of `l`, entered at `active`. -/
structure Ring (s : SFQ π) (l : List ℕ) : Prop where
  links : LinkRing s.next s.prev l
  active : s.active = l.head?

/-- Nothing but the ring may differ. -/
def SameBuckets (s s' : SFQ π) : Prop :=
  s'.bucket = s.bucket ∧ s'.queue = s.queue ∧ s'.pkts = s.pkts ∧ s'.occupied = s.occupied

theorem Ring.activate {s : SFQ π} {l : List ℕ} {this : ℕ} (h : Ring s l) (hn : this ∉ l) :
    ∃ s', s.activate this = some s' ∧ Ring s' (l ++ [this]) ∧ SameBuckets s s' := by
  cases l with
  | nil =>
    have hactive : s.active = none := h.active
    rw [SFQ.activate, hactive]
    refine ⟨_, rfl, ⟨LinkRing.singleton.mpr ⟨?_, ?_⟩, rfl⟩, rfl, rfl, rfl, rfl⟩ <;>
      exact Function.update_self ..
  | cons a t =>
    have hactive : s.active = some a := h.active
    obtain ⟨p, hp⟩ := LinkRing.exists_last a t
    have hprev : s.prev a = some p := (h.links.linked_last hp).2
    have hne : a ≠ this := fun he => hn (by simp [he])
    have hlinks := h.links.insert hn hprev
    rw [SFQ.activate, hactive]
    dsimp only
    rw [Function.update_of_ne hne, hprev]
    exact ⟨_, rfl, ⟨hlinks, rfl⟩, rfl, rfl, rfl, rfl⟩

theorem Ring.idle {s : SFQ π} {a : ℕ} {t : List ℕ} (h : Ring s (a :: t)) :
    ∃ s', s.idle a = some s' ∧ Ring s' t ∧ SameBuckets s s' := by
  rw [SFQ.idle]
  cases t with
  | nil =>
    rw [if_pos (LinkRing.singleton.mp h.links).1]
    exact ⟨_, rfl, ⟨.nil, rfl⟩, rfl, rfl, rfl, rfl⟩
  | cons b t =>
    obtain ⟨p, hp⟩ := LinkRing.exists_last a (b :: t)
    have hprev : s.prev a = some p := (h.links.linked_last hp).2
    have hnext : s.next a = some b := h.links.linked_head.1
    obtain ⟨hnot, -⟩ := List.nodup_cons.mp h.links.nodup
    have hba : b ≠ a := fun he => hnot (by simp [he])
    have hpa : a ≠ p := by
      rintro rfl
      exact hnot (List.mem_of_getLast? (List.getLast?_cons_cons ▸ hp))
    have hlinks := h.links.remove hprev
    rw [← hnext] at hlinks
    rw [hnext, if_neg (by simpa using hba), Option.bind_some]
    dsimp only
    rw [Function.update_of_ne (Ne.symm hba), hprev]
    refine ⟨_, rfl, ⟨hlinks, ?_⟩, rfl, rfl, rfl, rfl⟩
    exact (Function.update_of_ne hpa _ _).trans hnext

theorem Ring.advance {s : SFQ π} {a : ℕ} {t : List ℕ} (h : Ring s (a :: t)) :
    Ring { s with active := s.next a } (t ++ [a]) := by
  refine ⟨h.links.rotate (A := [a]), ?_⟩
  cases t with
  | nil => exact (LinkRing.singleton.mp h.links).1
  | cons b t => exact h.links.linked_head.1

/-! ### The buckets -/

variable {c : SFQConfig π}

/-- The sums are ints, and the index of the packet's bucket is not negative. -/
def InArray (c : SFQConfig π) (p : π) : Prop :=
  let k := c.saddr p + c.daddr p
  isInt k ∧ isInt (k + k / 2 ^ 8) ∧
    (0 < k ∨ c.buckets_ ∣ (k + k / 2 ^ 8 - k / 2 ^ 4 - 1).tmod (2 ^ 20 - 1))

theorem which_of_inArray {p : π} (hb : 0 < c.buckets_) (h : InArray c p) :
    ∃ q, which c p = some q ∧ (q : ℤ) < c.buckets_ := by
  obtain ⟨hk, hsum, hpos⟩ := h
  rw [which, hash, if_pos ⟨hk, hsum⟩, Option.bind_some]
  generalize c.saddr p + c.daddr p = k at hk hsum hpos ⊢
  have he : k + k / 2 ^ 8 + (-(k / 2 ^ 4) - 1) = k + k / 2 ^ 8 - k / 2 ^ 4 - 1 := by ring
  rw [he]
  have hlt := Int.tmod_lt_of_pos ((k + k / 2 ^ 8 - k / 2 ^ 4 - 1).tmod (2 ^ 20 - 1)) hb
  have hge : 0 ≤ ((k + k / 2 ^ 8 - k / 2 ^ 4 - 1).tmod (2 ^ 20 - 1)).tmod c.buckets_ := by
    rcases hpos with hpos | hdvd
    · exact Int.tmod_nonneg _ (Int.tmod_nonneg _ (by omega))
    · exact (Int.tmod_eq_zero_of_dvd hdvd).ge
  rw [if_neg (not_lt.mpr hge)]
  exact ⟨_, rfl, by omega⟩

theorem tmod_nonpos {a : ℤ} (b : ℤ) (h : a ≤ 0) : a.tmod b ≤ 0 := by
  have hneg := Int.tmod_nonneg b (neg_nonneg.mpr h)
  rw [Int.neg_tmod] at hneg
  omega

theorem inArray_of_which {p : π} {q : ℕ} (h : which c p = some q) :
    InArray c p := by
  obtain ⟨i, hi, hq⟩ := Option.bind_eq_some_iff.mp h
  rw [hash] at hi
  dsimp only at hi hq
  rw [InArray]
  generalize c.saddr p + c.daddr p = k at hi ⊢
  split_ifs at hi with hint
  split_ifs at hq with hneg
  obtain rfl := Option.some.inj hi
  refine ⟨hint.1, hint.2, ?_⟩
  by_cases hpos : 0 < k
  · exact .inl hpos
  · have he : k + k / 2 ^ 8 + (-(k / 2 ^ 4) - 1) = k + k / 2 ^ 8 - k / 2 ^ 4 - 1 := by ring
    rw [he] at hneg
    have hle : (k + k / 2 ^ 8 - k / 2 ^ 4 - 1).tmod (2 ^ 20 - 1) ≤ 0 :=
      tmod_nonpos _ (by omega)
    have hle' := tmod_nonpos c.buckets_ hle
    exact .inr (Int.dvd_of_tmod_eq_zero (le_antisymm hle' (not_lt.mp hneg)))

/-! ### The rounds -/

/-- The buckets in the order in which they are to be served, the packets that each of them has
accepted and given out, and whether a call found a bucket to serve and gave out no packet. -/
structure Rounds (π : Type) where
  order : List ℕ
  arrived : ℕ → List π
  left : ℕ → List π
  starved : Bool

/-- A new bucket is served after all others. -/
def Rounds.arrive (g : Rounds π) (b : ℕ) (p : π) : Rounds π :=
  { g with
    order := if b ∈ g.order then g.order else g.order ++ [b]
    arrived := Function.update g.arrived b (g.arrived b ++ [p]) }

/-- The first bucket gives out a packet; if it has more, its next turn comes after all others. -/
def Rounds.leave (g : Rounds π) : Option π → Rounds π
  | none => { g with starved := g.order ≠ [] }
  | some p =>
    match g.order with
    | [] => { g with starved := true }
    | b :: t => { g with
        order := if (g.left b).length + 1 = (g.arrived b).length then t else t ++ [b]
        left := Function.update g.left b (g.left b ++ [p]) }

/-- What the calls promise: the counts and the limit, the ring in the order of the rounds with the
buckets that store packets, and first in, first out in each of them. -/
structure Serves (c : SFQConfig π) (s : SFQ π) (g : Rounds π) : Prop where
  occupied : s.occupied = ∑ b ∈ Finset.range c.buckets_.toNat, ((s.queue b).length : ℤ)
  limit : s.occupied ≤ c.maxqueue_
  pkts : ∀ b, s.pkts b = (s.queue b).length
  ring : Ring s g.order
  active : ∀ b, b ∈ g.order ↔ s.queue b ≠ []
  inside : ∀ b ∈ g.order, (b : ℤ) < c.buckets_
  fifo : ∀ b, g.arrived b = g.left b ++ s.queue b
  fed : g.starved = false

theorem Ring.congr {s s' : SFQ π} {l : List ℕ} (h : Ring s l) (hn : s'.next = s.next)
    (hp : s'.prev = s.prev) (ha : s'.active = s.active) : Ring s' l :=
  ⟨by rw [hn, hp]; exact h.links, ha.trans h.active⟩

/-- The sum over the buckets when one of them changes. -/
theorem sum_update {n b : ℕ} (hb : b < n) (f : ℕ → List π) (l : List π) :
    ∑ x ∈ Finset.range n, ((Function.update f b l x).length : ℤ) =
      ∑ x ∈ Finset.range n, ((f x).length : ℤ) - (f b).length + l.length := by
  have hm : b ∈ Finset.range n := Finset.mem_range.mpr hb
  rw [← Finset.add_sum_erase _ _ hm, ← Finset.add_sum_erase _ (fun x => ((f x).length : ℤ)) hm,
    Function.update_self]
  have hrest : ∑ x ∈ (Finset.range n).erase b, ((Function.update f b l x).length : ℤ) =
      ∑ x ∈ (Finset.range n).erase b, ((f x).length : ℤ) :=
    Finset.sum_congr rfl fun x hx => by rw [Function.update_of_ne (Finset.ne_of_mem_erase hx)]
  rw [hrest]
  ring

theorem Serves.store {s : SFQ π} {g : Rounds π} (h : Serves c s g) {p : π} {q : ℕ}
    (hq : (q : ℤ) < c.buckets_) (hfree : s.occupied < c.maxqueue_) :
    ∃ s', s.store p q = some s' ∧ Serves c s' (g.arrive q p) ∧ s'.bucket = s.bucket := by
  obtain ⟨t, ht⟩ : ∃ t : SFQ π, t = { s with
      queue := Function.update s.queue q (s.queue q ++ [p])
      occupied := s.occupied + 1
      pkts := Function.update s.pkts q (s.pkts q + 1) } := ⟨_, rfl⟩
  have hring : Ring t g.order := h.ring.congr (by rw [ht]) (by rw [ht]) (by rw [ht])
  have hpkts : ∀ b, t.pkts b = (t.queue b).length := by
    intro b
    rw [ht]
    by_cases hb : b = q
    · subst hb
      simp [h.pkts]
    · simp [hb, h.pkts]
  have hocc : t.occupied = ∑ b ∈ Finset.range c.buckets_.toNat, ((t.queue b).length : ℤ) := by
    rw [ht]
    dsimp only
    rw [sum_update (by omega), h.occupied, List.length_append, List.length_singleton]
    push_cast
    ring
  have hlimit : t.occupied ≤ c.maxqueue_ := by
    rw [ht]
    dsimp only
    omega
  have hempty : t.pkts q = 1 ↔ q ∉ g.order := by
    rw [h.active, not_not, ht]
    simp only [Function.update_self, h.pkts]
    rw [← List.length_eq_zero_iff]
    omega
  have hfifo : ∀ b, (g.arrive q p).arrived b = (g.arrive q p).left b ++ t.queue b := by
    intro b
    rw [ht]
    by_cases hb : b = q
    · subst hb
      simp [Rounds.arrive, h.fifo]
    · simp [Rounds.arrive, hb, h.fifo]
  have hactive : ∀ b, b ∈ (g.arrive q p).order ↔ t.queue b ≠ [] := by
    intro b
    rw [ht]
    by_cases hb : b = q
    · subst hb
      simp only [Rounds.arrive, Function.update_self]
      split_ifs <;> simp [*]
    · simp only [Rounds.arrive, Function.update_of_ne hb, ← h.active]
      split_ifs <;> simp [hb]
  have horder : (g.arrive q p).order = if q ∈ g.order then g.order else g.order ++ [q] := rfl
  rw [SFQ.store, ← ht]
  by_cases hmem : q ∈ g.order
  · rw [if_neg (hempty.not.mpr (not_not.mpr hmem))]
    rw [if_pos hmem] at horder
    exact ⟨t, rfl, ⟨hocc, hlimit, hpkts, horder ▸ hring, hactive, horder ▸ h.inside, hfifo, h.fed⟩,
      by rw [ht]⟩
  · rw [if_pos (hempty.mpr hmem)]
    rw [if_neg hmem] at horder
    obtain ⟨s', hs', hring', hbucket, hqueue, hpk, hoc⟩ := hring.activate hmem
    refine ⟨s', hs', ⟨?_, ?_, ?_, horder ▸ hring', ?_, ?_, ?_, h.fed⟩, by rw [hbucket, ht]⟩
    · rw [hoc, hqueue, hocc]
    · rw [hoc]
      exact hlimit
    · rw [hpk, hqueue]
      exact hpkts
    · rw [hqueue]
      exact hactive
    · rw [horder]
      intro b hb
      rcases List.mem_append.mp hb with hb | hb
      · exact h.inside b hb
      · exact List.mem_singleton.mp hb ▸ hq
    · rw [hqueue]
      exact hfifo

theorem Serves.serve {s : SFQ π} {g : Rounds π} (h : Serves c s g) {a : ℕ} {t : List ℕ}
    (ho : g.order = a :: t) :
    ∃ s' o, s.serve a = some (s', o) ∧ Serves c s' (g.leave o) ∧ s'.bucket = s.bucket := by
  have hamem : a ∈ g.order := by simp [ho]
  have hlt := h.inside a hamem
  obtain ⟨p, rest, hqueue⟩ := List.exists_cons_of_ne_nil ((h.active a).mp hamem)
  obtain ⟨u, hu⟩ : ∃ u : SFQ π, u = { s with
      pkts := Function.update s.pkts a (s.pkts a - 1)
      occupied := s.occupied - 1
      queue := Function.update s.queue a rest } := ⟨_, rfl⟩
  have hring : Ring u (a :: t) := ho ▸ h.ring.congr (by rw [hu]) (by rw [hu]) (by rw [hu])
  have hpkts : ∀ b, u.pkts b = (u.queue b).length := by
    intro b
    rw [hu]
    by_cases hb : b = a
    · subst hb
      simp [h.pkts, hqueue]
    · simp [hb, h.pkts]
  have hocc : u.occupied = ∑ b ∈ Finset.range c.buckets_.toNat, ((u.queue b).length : ℤ) := by
    rw [hu]
    dsimp only
    rw [sum_update (by omega), h.occupied, hqueue, List.length_cons]
    push_cast
    ring
  have hlimit : u.occupied ≤ c.maxqueue_ := by
    have := h.limit
    rw [hu]
    dsimp only
    omega
  have hua : u.queue a = rest := by
    rw [hu]
    exact Function.update_self ..
  have huo : ∀ b, b ≠ a → u.queue b = s.queue b := by
    intro b hb
    rw [hu]
    exact Function.update_of_ne hb _ _
  have hfifo : ∀ b, (g.leave (some p)).arrived b = (g.leave (some p)).left b ++ u.queue b := by
    intro b
    simp only [Rounds.leave, ho]
    by_cases hb : b = a
    · subst hb
      simp [h.fifo, hua, hqueue]
    · simp [hb, h.fifo, huo b hb]
  have hcount : (g.left a).length + 1 = (g.arrived a).length ↔ rest = [] := by
    rw [h.fifo, hqueue, List.length_append, List.length_cons, ← List.length_eq_zero_iff]
    omega
  have horder : (g.leave (some p)).order = if rest = [] then t else t ++ [a] := by
    simp only [Rounds.leave, ho, hcount]
  have hnd := h.ring.links.nodup
  rw [ho] at hnd
  obtain ⟨hat, -⟩ := List.nodup_cons.mp hnd
  have hactive : ∀ b, b ∈ (g.leave (some p)).order ↔ u.queue b ≠ [] := by
    intro b
    rw [horder]
    by_cases hb : b = a
    · subst hb
      rw [hua]
      split_ifs with hrest <;> simp [hat, hrest]
    · have hmem : b ∈ g.order ↔ b ∈ t := by simp [ho, hb]
      rw [huo b hb, ← h.active, hmem]
      split_ifs <;> simp [hb]
  have hinside : ∀ b ∈ (g.leave (some p)).order, (b : ℤ) < c.buckets_ := by
    intro b hb
    rw [horder] at hb
    have hmem : b ∈ a :: t := by
      split_ifs at hb
      · exact List.mem_cons_of_mem a hb
      · simpa [or_comm] using hb
    exact h.inside b (ho ▸ hmem)
  have hfed : (g.leave (some p)).starved = false := by
    simp only [Rounds.leave, ho]
    exact h.fed
  have hempty : u.pkts a = 0 ↔ rest = [] := by
    rw [hpkts, hua, ← List.length_eq_zero_iff]
    omega
  rw [SFQ.serve, hqueue, List.head?_cons, List.tail_cons, ← hu]
  by_cases hrest : rest = []
  · rw [if_pos (hempty.mpr hrest)]
    rw [if_pos hrest] at horder
    obtain ⟨s', hs', hring', hbucket, hq', hpk, hoc⟩ := hring.idle
    rw [hs']
    refine ⟨s', some p, rfl, ⟨?_, ?_, ?_, horder ▸ hring', ?_, hinside, ?_, hfed⟩,
      by rw [hbucket, hu]⟩
    · rw [hoc, hq', hocc]
    · rw [hoc]
      exact hlimit
    · rw [hpk, hq']
      exact hpkts
    · rw [hq']
      exact hactive
    · rw [hq']
      exact hfifo
  · rw [if_neg (hempty.not.mpr hrest)]
    rw [if_neg hrest] at horder
    exact ⟨_, some p, rfl, ⟨hocc, hlimit, hpkts, horder ▸ hring.advance, hactive, hinside, hfifo,
      hfed⟩, by rw [hu]⟩

/-! ### Runs -/

/-- One call, with the rounds that it should have made. -/
def step (c : SFQConfig π) (s : SFQ π × Rounds π) : Op π → Option ((SFQ π × Rounds π) × Option π)
  | .enque p => (enque c s.1 p).bind fun r => (which c p).map fun q =>
      ((r.1, if r.2 then s.2 else s.2.arrive q p), none)
  | .deque => (deque c s.1).map fun r => ((r.1, s.2.leave r.2), r.2)

def start : SFQ π × Rounds π := (new, ⟨[], fun _ => [], fun _ => [], false⟩)

/-- The promise, from the first call on. -/
def Served (c : SFQConfig π) (s : SFQ π × Rounds π) : Prop :=
  s.1.bucket = true → Serves c s.1 s.2

/-- There are buckets and the limit is not negative; the bucket of a packet is in the array. -/
def Fits (c : SFQConfig π) (_ : SFQ π × Rounds π) (op : Op π) : Prop :=
  0 < c.buckets_ ∧ 0 ≤ c.maxqueue_ ∧ ∀ p, op = .enque p → InArray c p

/-- The state between the calls. -/
def Inv (c : SFQConfig π) (s : SFQ π × Rounds π) : Prop :=
  s = start ∨ s.1.bucket = true ∧ 0 < c.buckets_ ∧ Serves c s.1 s.2

theorem Inv.ready {s : SFQ π × Rounds π} (h : Inv c s) (hb : 0 < c.buckets_)
    (hm : 0 ≤ c.maxqueue_) :
    ∃ s', SFQ.ready c s.1 = some s' ∧ s'.bucket = true ∧ Serves c s' s.2 := by
  rcases h with rfl | ⟨hbucket, -, hserves⟩
  · refine ⟨_, if_pos hb, rfl, ?_⟩
    exact ⟨by simp, hm, fun _ => rfl, ⟨.nil, rfl⟩, by simp [start], by simp [start],
      fun _ => rfl, rfl⟩
  · exact ⟨s.1, if_pos hbucket, hbucket, hserves⟩

theorem Inv.next {s : SFQ π × Rounds π} (h : Inv c s) {op : Op π} (hf : Fits c s op) :
    ∃ s' o, step c s op = some (s', o) ∧ Inv c s' := by
  obtain ⟨hb, hm, hin⟩ := hf
  obtain ⟨t, ht, hbucket, hserves⟩ := h.ready hb hm
  cases op with
  | enque p =>
    obtain ⟨q, hq, hlt⟩ := which_of_inArray hb (hin p rfl)
    simp only [step, enque, ht, hq, Option.bind_some]
    by_cases hdrop : t.pkts q ≥ (c.maxqueue_ - t.occupied) / 2 ∨
        c.maxqueue_ - t.occupied < c.buckets_ ∧ t.pkts q > t.fairshare ∨
          c.maxqueue_ - t.occupied ≤ 0
    · rw [if_pos hdrop]
      exact ⟨_, none, rfl, .inr ⟨hbucket, hb, hserves⟩⟩
    · rw [if_neg hdrop]
      obtain ⟨s', hs', hserves', hbucket'⟩ := hserves.store (p := p) hlt (by omega)
      rw [hs']
      exact ⟨_, none, rfl, .inr ⟨hbucket'.trans hbucket, hb, hserves'⟩⟩
  | deque =>
    simp only [step, deque, ht, Option.bind_some, hserves.ring.active]
    cases ho : s.2.order with
    | nil =>
      refine ⟨_, none, rfl, .inr ⟨hbucket, hb, ?_⟩⟩
      have hsame : s.2.leave none = s.2 := by
        have hfed := hserves.fed
        simp only [Rounds.leave, ho]
        cases hg : s.2
        simp_all
      rw [hsame]
      exact hserves
    | cons a l =>
      obtain ⟨s', o, hs', hserves', hbucket'⟩ := hserves.serve ho
      rw [List.head?_cons]
      dsimp only
      rw [hs']
      exact ⟨_, o, rfl, .inr ⟨hbucket'.trans hbucket, hb, hserves'⟩⟩

theorem Serves.limit_nonneg {s : SFQ π} {g : Rounds π} (h : Serves c s g) : 0 ≤ c.maxqueue_ := by
  refine le_trans ?_ h.limit
  rw [h.occupied]
  exact Finset.sum_nonneg fun b _ => Int.natCast_nonneg _

theorem ready_start (hb : 0 < c.buckets_) :
    ∃ t, SFQ.ready c (start (π := π)).1 = some t ∧ t.bucket = true ∧ t.active = none ∧
      t.occupied = 0 :=
  ⟨_, if_pos hb, rfl, rfl, rfl⟩

/-- The empty queue exceeds a negative limit. -/
theorem start_break {s' : SFQ π × Rounds π} {op : Op π} {o : Option π} (hb : 0 < c.buckets_)
    (hm : c.maxqueue_ < 0) (hs : step c start op = some (s', o)) : ¬ Served c s' := by
  obtain ⟨t, ht, hbucket, hactive, hocc⟩ := ready_start (π := π) hb
  suffices hs' : s'.1 = t from fun h => by
    have := (h (hs' ▸ hbucket)).limit_nonneg
    omega
  cases op with
  | enque p =>
    simp only [step, enque, ht, Option.bind_some] at hs
    obtain ⟨r, hr, hs⟩ := Option.bind_eq_some_iff.mp hs
    obtain ⟨q, -, hr⟩ := Option.bind_eq_some_iff.mp hr
    rw [if_pos (.inr (.inr (by omega)))] at hr
    obtain rfl := Option.some.inj hr
    obtain ⟨q', -, hs⟩ := Option.map_eq_some_iff.mp hs
    exact (congrArg (fun r => r.1.1) hs).symm
  | deque =>
    simp only [step, deque, ht, hactive, Option.bind_some, Option.map_some] at hs
    exact (congrArg (fun r => r.1.1) (Option.some.inj hs)).symm

theorem Inv.next_break {s s' : SFQ π × Rounds π} {op : Op π} {o : Option π} (h : Inv c s)
    (hno : ¬ Fits c s op) (hs : step c s op = some (s', o)) : ¬ Served c s' := by
  have hready : ∃ t, SFQ.ready c s.1 = some t := by
    cases op with
    | enque p =>
      obtain ⟨r, hr, -⟩ := Option.bind_eq_some_iff.mp hs
      obtain ⟨t, ht, -⟩ := Option.bind_eq_some_iff.mp hr
      exact ⟨t, ht⟩
    | deque =>
      obtain ⟨r, hr, -⟩ := Option.map_eq_some_iff.mp hs
      obtain ⟨t, ht, -⟩ := Option.bind_eq_some_iff.mp hr
      exact ⟨t, ht⟩
  have hb : 0 < c.buckets_ := by
    rcases h with rfl | ⟨-, hb, -⟩
    · obtain ⟨t, ht⟩ := hready
      by_contra hneg
      rw [SFQ.ready, if_neg (by simp [start, new]), initsfq, if_neg hneg] at ht
      cases ht
    · exact hb
  have hm : 0 ≤ c.maxqueue_ ∨ s = start := by
    rcases h with rfl | ⟨-, -, hserves⟩
    · exact .inr rfl
    · exact .inl hserves.limit_nonneg
  by_cases hneg : c.maxqueue_ < 0
  · obtain rfl := hm.resolve_left (by omega)
    exact start_break hb hneg hs
  · refine absurd ⟨hb, by omega, ?_⟩ hno
    rintro p rfl
    obtain ⟨r, hr, hs⟩ := Option.bind_eq_some_iff.mp hs
    obtain ⟨q, hq, -⟩ := Option.map_eq_some_iff.mp hs
    exact inArray_of_which hq

/-- Every run keeps the promise exactly as far as the packets' buckets are in the array. -/
theorem serves_iff (ops : List (Op π)) :
    Machine.Always (step c) (Served c) start ops ↔ Machine.Admits (step c) (Fits c) start ops := by
  refine Machine.always_iff (I := Inv c) ?_ (fun _ _ h hf => h.next hf)
    (fun _ _ _ _ h hno hs => h.next_break hno hs) (.inl rfl) ops
  rintro s (rfl | ⟨-, -, hserves⟩) hbucket
  · cases hbucket
  · exact hserves

/-- The default configuration, for packets given by their addresses. -/
def byAddress : SFQConfig (ℤ × ℤ) := ⟨40, 16, Prod.fst, Prod.snd⟩

/-- A broadcast of node 0 has no bucket. -/
theorem broadcast_outside :
    ¬ ∀ ops, Machine.Always (step byAddress) (Served byAddress) start ops := by
  intro h
  obtain ⟨s, os, hrun, -⟩ := (h [.enque (0, -1)]).run
  have hnone : (Machine.run (step byAddress) start [.enque (0, -1)]).isNone := by decide +kernel
  rw [hrun] at hnone
  cases hnone

end Ns2.SFQ
