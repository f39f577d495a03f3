import Ns2.Lib.Intervals
import Ns2.Lib.Machine

/-! The receive buffer of the reliable multicast agents: which packets have arrived, kept as the list
of the gaps between them. -/

namespace Ns2

/-- A gap, and the number of the object that holds it. -/
structure Gap where
  id : ℕ
  start_ : ℤ
  end_ : ℤ
  time_ : ℚ
  deriving DecidableEq

/-- The numbers from `fresh` on are not in use. -/
structure RcvBuffer where
  nextpkt_ : ℤ
  maxpkt_ : ℤ
  pkts_recovered_ : ℕ
  duplicates_ : ℕ
  delay_sum_ : ℚ
  max_delay_ : ℚ
  min_delay_ : ℚ
  gap_ : List Gap
  tail_ : Option ℕ
  fresh : ℕ
  deriving DecidableEq

namespace Gap

def Contains (g : Gap) (i : ℤ) : Prop := g.start_ ≤ i ∧ i ≤ g.end_

instance (g : Gap) (i : ℤ) : Decidable (g.Contains i) :=
  inferInstanceAs (Decidable (g.start_ ≤ i ∧ i ≤ g.end_))

end Gap

namespace RcvBuffer

def new : RcvBuffer where
  nextpkt_ := 0
  maxpkt_ := -1
  pkts_recovered_ := 0
  duplicates_ := 0
  delay_sum_ := 0
  max_delay_ := 0
  min_delay_ := 1000000
  gap_ := []
  tail_ := none
  fresh := 0

/-- `exists_pkt` -/
def exists_pkt (b : RcvBuffer) (i : ℤ) : Bool :=
  if i ≤ b.maxpkt_ then true
  else if i ≥ b.nextpkt_ then false
  else !b.gap_.any fun g => g.Contains i

/-- `tail->next_ = g`; `none` is a null pointer. -/
def linkTail (tail : Option ℕ) (g : Gap) : List Gap → Option (List Gap)
  | [] => none
  | x :: l => if tail = some x.id then some [x, g] else (linkTail tail g l).map (x :: ·)

/-- A gap behind the last packet so far. -/
def newGap (b : RcvBuffer) (i : ℤ) (tnow : ℚ) : Option RcvBuffer :=
  let g : Gap := ⟨b.fresh, b.nextpkt_, i - 1, tnow⟩
  (if b.gap_ = [] then some [g] else linkTail b.tail_ g b.gap_).map fun gap =>
    { b with gap_ := gap, tail_ := some b.fresh, fresh := b.fresh + 1, nextpkt_ := i + 1 }

/-- The time that a packet was missing. -/
def addDelay (b : RcvBuffer) (d : ℚ) : RcvBuffer :=
  { b with
    delay_sum_ := b.delay_sum_ + d
    max_delay_ := if d > b.max_delay_ then d else b.max_delay_
    min_delay_ := if d < b.min_delay_ then d else b.min_delay_ }

/-- The gap that a packet belongs to, with the gaps before and behind it; `none` is a null pointer. -/
def locate (i : ℤ) (before : List Gap) : List Gap → Option (List Gap × Gap × List Gap)
  | [] => none
  | g :: l => if g.Contains i then some (before, g, l) else locate i (before ++ [g]) l

/-- A packet at the end or in the middle of a gap. -/
def splitGap (b : RcvBuffer) (i : ℤ) (before : List Gap) (g : Gap) (after : List Gap) : RcvBuffer :=
  if g.end_ = i then { b with gap_ := before ++ { g with end_ := g.end_ - 1 } :: after }
  else
    let pg : Gap := ⟨b.fresh, i + 1, g.end_, g.time_⟩
    { b with
      gap_ := before ++ { g with end_ := i - 1 } :: pg :: after
      tail_ := if b.tail_ = some g.id then some pg.id else b.tail_
      fresh := b.fresh + 1 }

/-- The packet with which the first gap begins. -/
def shrinkFirst (b : RcvBuffer) (g : Gap) (after : List Gap) : RcvBuffer :=
  let b := { b with maxpkt_ := b.maxpkt_ + 1 }
  if g.start_ + 1 > g.end_ then
    match after with
    | [] => { b with gap_ := [], maxpkt_ := b.nextpkt_ - 1, tail_ := none }
    | h :: _ => { b with gap_ := after, maxpkt_ := h.start_ - 1 }
  else { b with gap_ := { g with start_ := g.start_ + 1 } :: after }

/-- The packet with which a later gap begins. -/
def shrinkGap (b : RcvBuffer) (before : List Gap) (g : Gap) (after : List Gap) : RcvBuffer :=
  if g.start_ + 1 > g.end_ then
    { b with
      gap_ := before ++ after
      tail_ := if b.tail_ = some g.id then before.getLast?.map (·.id) else b.tail_ }
  else { b with gap_ := before ++ { g with start_ := g.start_ + 1 } :: after }

/-- A packet that was missing; `none` is a null pointer. -/
def recover (b : RcvBuffer) (i : ℤ) (tnow : ℚ) : Option RcvBuffer :=
  let b := { b with pkts_recovered_ := b.pkts_recovered_ + 1 }
  match b.gap_ with
  | [] => none
  | first :: rest =>
    if first.Contains i then
      let b := b.addDelay (tnow - first.time_)
      some (if i = b.maxpkt_ + 1 then b.shrinkFirst first rest else b.splitGap i [] first rest)
    else
      (locate i [first] rest).map fun r =>
        let b := b.addDelay (tnow - r.2.1.time_)
        if r.2.1.start_ = i then b.shrinkGap r.1 r.2.1 r.2.2 else b.splitGap i r.1 r.2.1 r.2.2

/-- `add_pkt`; `none` is a null pointer. -/
def add_pkt (b : RcvBuffer) (i : ℤ) (tnow : ℚ) : Option RcvBuffer :=
  if b.exists_pkt i then some { b with duplicates_ := b.duplicates_ + 1 }
  else if i = b.nextpkt_ then
    some { b with
      nextpkt_ := b.nextpkt_ + 1
      maxpkt_ := if i = b.maxpkt_ + 1 then b.maxpkt_ + 1 else b.maxpkt_ }
  else if i > b.nextpkt_ then b.newGap i tnow
  else b.recover i tnow

def step (b : RcvBuffer) (p : ℤ × ℚ) : Option (RcvBuffer × Unit) :=
  (b.add_pkt p.1 p.2).map fun b => (b, ())

/-- The arrivals of a packet that is there already, when some have been seen. -/
def duplicateArrivals : List ℤ → List ℤ → ℕ
  | _, [] => 0
  | seen, i :: is => (if i ∈ seen then 1 else 0) + duplicateArrivals (i :: seen) is

/-- The first arrivals of a packet after one with a higher number. -/
def lateArrivals : List ℤ → List ℤ → ℕ
  | _, [] => 0
  | seen, i :: is =>
    (if i ∉ seen ∧ ∃ j ∈ seen, i < j then 1 else 0) + lateArrivals (i :: seen) is

/-- What the buffer knows when some packets have arrived. -/
structure Ok (rs : List ℤ) (b : RcvBuffer) : Prop where
  normal : Intervals.Normal Gap.start_ (fun g => g.end_ + 1) b.gap_
  cover : ∀ x, (∃ g ∈ b.gap_, g.start_ ≤ x ∧ x ≤ g.end_) ↔ 0 ≤ x ∧ x < b.nextpkt_ ∧ x ∉ rs
  below : ∀ x ∈ rs, 0 ≤ x ∧ x < b.nextpkt_
  next : b.nextpkt_ = 0 ∨ b.nextpkt_ - 1 ∈ rs
  next_nonneg : 0 ≤ b.nextpkt_
  maxpkt : b.maxpkt_ + 1 = (b.gap_.head?.map (·.start_)).getD b.nextpkt_
  tail : b.tail_ = b.gap_.getLast?.map (·.id)
  ids : (b.gap_.map (·.id)).Nodup
  fresh : ∀ g ∈ b.gap_, g.id < b.fresh

variable {rs : List ℤ} {b t : RcvBuffer} {i : ℤ} {tnow : ℚ} {L R K : List Gap} {g : Gap}

theorem ok_new : new.Ok [] :=
  ⟨Intervals.normal_nil, fun _ => iff_of_false (fun ⟨_, hg, _⟩ => absurd hg List.not_mem_nil)
    fun h => absurd (h.1.trans_lt h.2.1) (lt_irrefl 0), List.forall_mem_nil _, .inl rfl, le_rfl, rfl,
    rfl, List.nodup_nil, List.forall_mem_nil _⟩

/-- Everything before the first gap has arrived. -/
theorem Ok.received_of_le (h : b.Ok rs) {x : ℤ} (h0 : 0 ≤ x) (hx : x ≤ b.maxpkt_) : x ∈ rs := by
  by_contra hout
  have hmax := h.maxpkt
  have hlt : x < b.nextpkt_ := by
    cases hg : b.gap_ with
    | nil =>
      rw [hg] at hmax
      change b.maxpkt_ + 1 = b.nextpkt_ at hmax
      omega
    | cons g l =>
      rw [hg] at hmax
      change b.maxpkt_ + 1 = g.start_ at hmax
      have hpos := h.normal.pos g (by rw [hg]; exact List.mem_cons_self)
      have hin := (h.cover g.start_).mp ⟨g, by rw [hg]; exact List.mem_cons_self, le_rfl, by omega⟩
      omega
  obtain ⟨g, hg, hs, he⟩ := (h.cover x).mpr ⟨h0, hlt, hout⟩
  cases hl : b.gap_ with
  | nil =>
    rw [hl] at hg
    cases hg
  | cons g0 l =>
    rw [hl] at hmax hg
    change b.maxpkt_ + 1 = g0.start_ at hmax
    rcases List.mem_cons.mp hg with rfl | hg
    · omega
    · have hn := h.normal
      rw [hl] at hn
      have hlt := (List.pairwise_cons.mp hn.apart).1 g hg
      have hpos := hn.pos g0 List.mem_cons_self
      omega

/-- The packet behind them has not. -/
theorem Ok.missing (h : b.Ok rs) : b.maxpkt_ + 1 ∉ rs := by
  have hmax := h.maxpkt
  cases hg : b.gap_ with
  | nil =>
    rw [hg] at hmax
    change b.maxpkt_ + 1 = b.nextpkt_ at hmax
    intro hmem
    have := h.below _ hmem
    omega
  | cons g l =>
    rw [hg] at hmax
    change b.maxpkt_ + 1 = g.start_ at hmax
    have hmem : g ∈ b.gap_ := by rw [hg]; exact List.mem_cons_self
    have hpos := h.normal.pos g hmem
    rw [hmax]
    exact ((h.cover g.start_).mp ⟨g, hmem, le_rfl, by omega⟩).2.2

theorem Ok.exists_pkt (h : b.Ok rs) (hi : 0 ≤ i) : b.exists_pkt i = true ↔ i ∈ rs := by
  rw [RcvBuffer.exists_pkt]
  split_ifs with hmax hnext
  · exact iff_of_true rfl (h.received_of_le hi hmax)
  · refine iff_of_false id fun hmem => ?_
    have := h.below i hmem
    omega
  · have hany : (b.gap_.any fun g => g.Contains i) = true ↔ 0 ≤ i ∧ i < b.nextpkt_ ∧ i ∉ rs := by
      rw [List.any_eq_true, ← h.cover i]
      exact exists_congr fun g => and_congr_right fun _ => decide_eq_true_iff
    have hlt := not_le.mp hnext
    rw [Bool.not_eq_true', ← Bool.not_eq_true, hany]
    tauto

/-- The packet that is expected. -/
theorem Ok.expected (h : b.Ok rs) : ({ b with
    nextpkt_ := b.nextpkt_ + 1
    maxpkt_ := if b.nextpkt_ = b.maxpkt_ + 1 then b.maxpkt_ + 1 else b.maxpkt_ } :
      RcvBuffer).Ok (rs ++ [b.nextpkt_]) := by
  have h0 := h.next_nonneg
  refine ⟨h.normal, fun x => ?_, fun x hx => ?_, .inr ?_, ?_, ?_, h.tail, h.ids, h.fresh⟩
  · dsimp only
    rw [h.cover x, List.mem_append, List.mem_singleton, not_or]
    constructor
    · rintro ⟨h1, h2, h3⟩
      exact ⟨h1, by omega, h3, by omega⟩
    · rintro ⟨h1, h2, h3, h4⟩
      exact ⟨h1, by omega, h3⟩
  · dsimp only
    rcases List.mem_append.mp hx with hx | hx
    · have := h.below x hx
      omega
    · obtain rfl := List.mem_singleton.mp hx
      omega
  · exact List.mem_append_right _ (by simp)
  · change 0 ≤ b.nextpkt_ + 1
    omega
  · have hmax := h.maxpkt
    dsimp only
    cases hg : b.gap_ with
    | nil =>
      rw [hg] at hmax
      change b.maxpkt_ + 1 = b.nextpkt_ at hmax
      rw [if_pos hmax.symm]
      change b.maxpkt_ + 1 + 1 = b.nextpkt_ + 1
      omega
    | cons g l =>
      rw [hg] at hmax
      change b.maxpkt_ + 1 = g.start_ at hmax
      have hmem : g ∈ b.gap_ := by rw [hg]; exact List.mem_cons_self
      have hpos := h.normal.pos g hmem
      have hin := (h.cover g.start_).mp ⟨g, hmem, le_rfl, by omega⟩
      rw [if_neg (by omega)]
      exact hmax

theorem linkTail_last (h : (b.gap_.map (·.id)).Nodup) (hne : b.gap_ ≠ []) (g : Gap) :
    linkTail (b.gap_.getLast?.map (·.id)) g b.gap_ = some (b.gap_ ++ [g]) := by
  generalize b.gap_ = l at h hne
  induction l with
  | nil => exact absurd rfl hne
  | cons x l ih =>
    rw [linkTail]
    cases l with
    | nil => exact if_pos rfl
    | cons y l =>
      obtain ⟨hx, hl⟩ := List.nodup_cons.mp h
      have hlast : (x :: y :: l).getLast? = (y :: l).getLast? := List.getLast?_cons_cons
      rw [hlast, if_neg, ih hl (List.cons_ne_nil y l)]
      · rfl
      · intro he
        obtain ⟨z, hz, hid⟩ := Option.map_eq_some_iff.mp he
        exact hx (List.mem_map.mpr ⟨z, List.mem_of_getLast? hz, hid⟩)

/-- A packet behind the one that is expected. -/
theorem Ok.newGap (h : b.Ok rs) (hi : b.nextpkt_ < i) :
    ∃ t, b.newGap i tnow = some t ∧ t.Ok (rs ++ [i]) ∧
      t.duplicates_ = b.duplicates_ ∧ t.pkts_recovered_ = b.pkts_recovered_ := by
  obtain ⟨g, hg⟩ : ∃ g : Gap, g = ⟨b.fresh, b.nextpkt_, i - 1, tnow⟩ := ⟨_, rfl⟩
  have hlink : (if b.gap_ = [] then some [g] else linkTail b.tail_ g b.gap_) =
      some (b.gap_ ++ [g]) := by
    split_ifs with hnil
    · rw [hnil]
      rfl
    · rw [h.tail]
      exact linkTail_last h.ids hnil g
  have h0 := h.next_nonneg
  have hapart : ∀ a ∈ b.gap_, a.end_ + 1 < b.nextpkt_ := fun a ha => by
    have hpos := h.normal.pos a ha
    obtain ⟨hge, hlt, hout⟩ := (h.cover a.end_).mp ⟨a, ha, by omega, le_rfl⟩
    rcases h.next with hz | hlast
    · omega
    · have hne : a.end_ ≠ b.nextpkt_ - 1 := fun he => hout (he ▸ hlast)
      omega
  rw [RcvBuffer.newGap, ← hg, hlink]
  refine ⟨_, rfl, ⟨?_, fun x => ?_, fun x hx => ?_, .inr ?_, ?_, ?_, ?_, ?_, fun a ha => ?_⟩, rfl,
    rfl⟩
  · refine Intervals.Normal.insert (by rw [List.append_nil]; exact h.normal) ?_ ?_
      (List.forall_mem_nil _)
    · rw [hg]
      change b.nextpkt_ < i - 1 + 1
      omega
    · rw [hg]
      exact hapart
  · have hcover := h.cover x
    simp only [List.mem_append, List.mem_singleton, or_and_right, exists_or, exists_eq_left, hcover,
      not_or]
    have hnot : b.nextpkt_ ≤ x → x ∉ rs := fun hx hmem => by
      have := h.below x hmem
      omega
    rw [hg]
    dsimp only
    constructor
    · rintro (⟨h1, h2, h3⟩ | ⟨h1, h2⟩)
      · exact ⟨h1, by omega, h3, by omega⟩
      · exact ⟨by omega, by omega, hnot h1, by omega⟩
    · rintro ⟨h1, h2, h3, h4⟩
      by_cases hx : x < b.nextpkt_
      · exact .inl ⟨h1, hx, h3⟩
      · exact .inr ⟨by omega, by omega⟩
  · dsimp only
    rcases List.mem_append.mp hx with hx | hx
    · have := h.below x hx
      omega
    · obtain rfl := List.mem_singleton.mp hx
      omega
  · dsimp only
    rw [add_sub_cancel_right]
    exact List.mem_append_right _ (by simp)
  · dsimp only
    omega
  · have hmax := h.maxpkt
    dsimp only
    cases hl : b.gap_ with
    | nil =>
      rw [hl] at hmax
      rw [hg]
      exact hmax
    | cons g l =>
      rw [hl] at hmax
      exact hmax
  · dsimp only
    rw [List.getLast?_append, hg]
    rfl
  · dsimp only
    rw [List.map_append, List.nodup_append]
    refine ⟨h.ids, List.nodup_singleton _, fun x hx y hy hxy => ?_⟩
    obtain ⟨a, ha, rfl⟩ := List.mem_map.mp hx
    have hlt := h.fresh a ha
    have hy' : y = g.id := List.mem_singleton.mp hy
    rw [hg] at hy'
    dsimp only at hxy hy'
    omega
  · dsimp only
    rcases List.mem_append.mp ha with ha | ha
    · exact (h.fresh a ha).trans (Nat.lt_succ_self _)
    · rw [List.mem_singleton.mp ha, hg]
      exact Nat.lt_succ_self _

/-- One gap gives way to what is left of it without a packet. -/
theorem Ok.replace (h : b.Ok rs) (hgap : b.gap_ = L ++ g :: R) (hg : g.Contains i)
    (hnext : t.nextpkt_ = b.nextpkt_) (ht : t.gap_ = L ++ (K ++ R))
    (hK : Intervals.Normal Gap.start_ (fun g => g.end_ + 1) K)
    (hin : ∀ x, (∃ a ∈ K, a.start_ ≤ x ∧ x ≤ a.end_) ↔ g.Contains x ∧ x ≠ i)
    (hmax : t.maxpkt_ + 1 = (t.gap_.head?.map (·.start_)).getD t.nextpkt_)
    (htail : t.tail_ = t.gap_.getLast?.map (·.id)) (hids : (t.gap_.map (·.id)).Nodup)
    (hfresh : ∀ a ∈ t.gap_, a.id < t.fresh) : t.Ok (rs ++ [i]) := by
  have hmem : g ∈ b.gap_ := by
    rw [hgap]
    simp
  obtain ⟨hi0, hilt, hiout⟩ := (h.cover i).mp ⟨g, hmem, hg⟩
  have hn := h.normal
  rw [hgap] at hn
  have hwithin : ∀ a ∈ K, g.start_ ≤ a.start_ ∧ a.end_ + 1 ≤ g.end_ + 1 := fun a ha => by
    have hpos := hK.pos a ha
    obtain ⟨⟨h1, -⟩, -⟩ := (hin a.start_).mp ⟨a, ha, le_rfl, by omega⟩
    obtain ⟨⟨-, h2⟩, -⟩ := (hin a.end_).mp ⟨a, ha, by omega, le_rfl⟩
    omega
  -- no other gap contains the packet
  have hother : ∀ a, a ∈ L ∨ a ∈ R → ¬ a.Contains i := fun a ha hai => by
    obtain ⟨h1, h2, h3⟩ := List.pairwise_append.mp hn.apart
    obtain ⟨hs, he⟩ := hai
    obtain ⟨hgs, hge⟩ := hg
    rcases ha with ha | ha
    · have := h3 a ha g List.mem_cons_self
      omega
    · have := (List.pairwise_cons.mp h2).1 a ha
      omega
  refine ⟨?_, fun x => ?_, fun x hx => ?_, ?_, ?_, hmax, htail, hids, hfresh⟩
  · rw [ht]
    exact hn.refine hK hwithin
  · have hcover := h.cover x
    rw [hgap] at hcover
    rw [hnext, ht, List.mem_append, List.mem_singleton, not_or, ← and_assoc, ← and_assoc,
      and_assoc (a := 0 ≤ x), ← hcover]
    simp only [List.mem_append, List.mem_cons, or_and_right, exists_or, exists_eq_left, hin x]
    have hL : (∃ a ∈ L, a.start_ ≤ x ∧ x ≤ a.end_) → x ≠ i := fun ⟨a, ha, hax⟩ he =>
      hother a (.inl ha) (he ▸ hax)
    have hR : (∃ a ∈ R, a.start_ ≤ x ∧ x ≤ a.end_) → x ≠ i := fun ⟨a, ha, hax⟩ he =>
      hother a (.inr ha) (he ▸ hax)
    constructor
    · rintro (h1 | ⟨h1, hne⟩ | h1)
      · exact .inl ⟨h1, hL h1⟩
      · exact .inr (.inl ⟨h1, hne⟩)
      · exact .inr (.inr ⟨h1, hR h1⟩)
    · rintro (⟨h1, hne⟩ | ⟨h1, hne⟩ | ⟨h1, hne⟩)
      · exact .inl h1
      · exact .inr (.inl ⟨h1, hne⟩)
      · exact .inr (.inr h1)
  · rw [hnext]
    rcases List.mem_append.mp hx with hx | hx
    · exact h.below x hx
    · rw [List.mem_singleton.mp hx]
      exact ⟨hi0, hilt⟩
  · rw [hnext]
    exact h.next.imp_right (List.mem_append_left _)
  · rw [hnext]
    exact h.next_nonneg

theorem Ok.tail_eq (h : b.Ok rs) (hgap : b.gap_ = L ++ g :: R) : b.tail_ = some g.id ↔ R = [] := by
  have hids := h.ids
  rw [h.tail]
  rw [hgap] at hids ⊢
  cases R with
  | nil => simp
  | cons r R =>
    rw [List.map_append, List.map_cons] at hids
    have hout := (List.nodup_cons.mp (List.nodup_append.mp hids).2.1).1
    refine iff_of_false (fun he => hout ?_) (List.cons_ne_nil r R)
    rw [List.getLast?_append, List.getLast?_cons_cons] at he
    obtain ⟨a, ha, hid⟩ := Option.map_eq_some_iff.mp he
    rw [List.getLast?_cons, Option.some_or, Option.some_inj] at ha
    rw [← hid, ← ha]
    exact List.mem_map_of_mem (List.mem_of_getLast? List.getLast?_cons)

theorem Ok.addDelay (h : b.Ok rs) (n : ℕ) (d : ℚ) :
    (({ b with pkts_recovered_ := n } : RcvBuffer).addDelay d).Ok rs :=
  ⟨h.normal, h.cover, h.below, h.next, h.next_nonneg, h.maxpkt, h.tail, h.ids, h.fresh⟩

theorem normal_singleton (h : g.start_ ≤ g.end_) :
    Intervals.Normal Gap.start_ (fun g => g.end_ + 1) [g] :=
  ⟨fun a ha => by rw [List.mem_singleton.mp ha]; omega, List.pairwise_singleton _ _⟩

theorem Ok.shrinkFirst (h : b.Ok rs) (hgap : b.gap_ = g :: R) (hg : g.Contains i)
    (hi : i = g.start_) : (b.shrinkFirst g R).Ok (rs ++ [i]) := by
  have hids := h.ids
  have hfresh := h.fresh
  have htail := h.tail
  have hmax := h.maxpkt
  rw [hgap] at hids hfresh htail hmax
  change b.maxpkt_ + 1 = g.start_ at hmax
  obtain ⟨hs, he⟩ := hg
  by_cases hend : g.start_ + 1 > g.end_
  · have hin : ∀ x, (∃ a ∈ ([] : List Gap), a.start_ ≤ x ∧ x ≤ a.end_) ↔ g.Contains x ∧ x ≠ i := by
      intro x
      refine iff_of_false (fun ⟨_, ha, _⟩ => absurd ha List.not_mem_nil) ?_
      rintro ⟨⟨h1, h2⟩, h3⟩
      omega
    cases R with
    | nil =>
      rw [RcvBuffer.shrinkFirst.eq_def, if_pos hend]
      exact h.replace (L := []) (R := []) hgap ⟨hs, he⟩ rfl rfl Intervals.normal_nil hin
        (sub_add_cancel _ _) rfl List.nodup_nil (List.forall_mem_nil _)
    | cons r R =>
      rw [RcvBuffer.shrinkFirst.eq_def, if_pos hend]
      refine h.replace (L := []) (R := r :: R) hgap ⟨hs, he⟩ rfl rfl Intervals.normal_nil hin
        (sub_add_cancel _ _) ?_ (List.nodup_cons.mp hids).2 fun a ha =>
          hfresh a (List.mem_cons_of_mem g ha)
      exact htail.trans (by rw [List.getLast?_cons_cons])
  · rw [RcvBuffer.shrinkFirst.eq_def, if_neg hend]
    refine h.replace (L := []) (K := [{ g with start_ := g.start_ + 1 }]) hgap ⟨hs, he⟩ rfl rfl
      (normal_singleton (not_lt.mp hend)) (fun x => ?_) ?_ ?_ hids ?_
    · simp only [List.mem_singleton, exists_eq_left, Gap.Contains]
      omega
    · change b.maxpkt_ + 1 + 1 = g.start_ + 1
      omega
    · rw [← List.getLast?_map]
      rw [← List.getLast?_map] at htail
      exact htail
    · intro a ha
      rcases List.mem_cons.mp ha with rfl | ha
      · exact hfresh g List.mem_cons_self
      · exact hfresh a (List.mem_cons_of_mem g ha)

theorem Ok.splitGap (h : b.Ok rs) (hgap : b.gap_ = L ++ g :: R) (hg : g.Contains i)
    (hi : g.start_ < i) : (b.splitGap i L g R).Ok (rs ++ [i]) := by
  have hids := h.ids
  have hfresh := h.fresh
  have htail := h.tail
  have hmax := h.maxpkt
  have hlast := h.tail_eq hgap
  rw [← List.getLast?_map] at htail
  rw [hgap] at hids hfresh htail hmax
  obtain ⟨hs, he⟩ := hg
  have hmem : ∀ a ∈ R, a ∈ L ++ g :: R := fun a ha => by simp [ha]
  rw [RcvBuffer.splitGap]
  by_cases hend : g.end_ = i
  · rw [if_pos hend]
    refine h.replace (K := [{ g with end_ := g.end_ - 1 }]) hgap ⟨hs, he⟩ rfl rfl
      (normal_singleton (by dsimp only; omega)) (fun x => ?_) ?_ ?_ ?_ fun a ha => ?_
    · simp only [List.mem_singleton, exists_eq_left, Gap.Contains]
      omega
    · cases L with
      | nil => exact hmax
      | cons a L => exact hmax
    · rw [← List.getLast?_map]
      simpa using htail
    · simpa using hids
    · rcases List.mem_append.mp ha with ha | ha
      · exact hfresh a (List.mem_append_left _ ha)
      · rcases List.mem_cons.mp ha with rfl | ha
        · exact hfresh g (by simp)
        · exact hfresh a (hmem a ha)
  · rw [if_neg hend]
    refine h.replace (K := [{ g with end_ := i - 1 }, ⟨b.fresh, i + 1, g.end_, g.time_⟩]) hgap
      ⟨hs, he⟩ rfl rfl ⟨?_, ?_⟩ (fun x => ?_) ?_ ?_ ?_ fun a ha => ?_
    · intro a ha
      rcases List.mem_pair.mp ha with rfl | rfl
      · dsimp only
        omega
      · dsimp only
        omega
    · refine List.pairwise_pair.mpr ?_
      dsimp only
      omega
    · simp only [List.mem_pair, or_and_right, exists_or, exists_eq_left, Gap.Contains]
      omega
    · cases L with
      | nil => exact hmax
      | cons a L => exact hmax
    · dsimp only
      cases R with
      | nil =>
        rw [if_pos (hlast.mpr rfl)]
        simp
      | cons r R =>
        rw [if_neg fun hno => absurd (hlast.mp hno) (List.cons_ne_nil r R), htail,
          ← List.getLast?_map]
        simp
    · have hout : b.fresh ∉ (L ++ g :: R).map (·.id) := fun hmem => by
        obtain ⟨a, ha, hid⟩ := List.mem_map.mp hmem
        exact absurd hid (hfresh a ha).ne
      simp only [List.map_append, List.map_cons] at hids hout ⊢
      have hperm : (L.map (·.id) ++ g.id :: b.fresh :: R.map (·.id)).Perm
          (b.fresh :: (L.map (·.id) ++ g.id :: R.map (·.id))) :=
        ((List.Perm.swap _ _ _).append_left _).trans List.perm_middle
      exact hperm.nodup_iff.mpr (List.nodup_cons.mpr ⟨hout, hids⟩)
    · dsimp only
      rcases List.mem_append.mp ha with ha | ha
      · exact (hfresh a (List.mem_append_left _ ha)).trans (Nat.lt_succ_self _)
      · rcases List.mem_cons.mp ha with rfl | ha
        · exact (hfresh g (by simp)).trans (Nat.lt_succ_self _)
        · rcases List.mem_cons.mp ha with rfl | ha
          · exact Nat.lt_succ_self _
          · exact (hfresh a (hmem a ha)).trans (Nat.lt_succ_self _)

theorem Ok.shrinkGap (h : b.Ok rs) (hgap : b.gap_ = L ++ g :: R) (hL : L ≠ [])
    (hg : g.Contains i) (hi : g.start_ = i) : (b.shrinkGap L g R).Ok (rs ++ [i]) := by
  have hids := h.ids
  have hfresh := h.fresh
  have htail := h.tail
  have hmax := h.maxpkt
  have hlast := h.tail_eq hgap
  rw [← List.getLast?_map] at htail
  rw [hgap] at hids hfresh htail hmax
  obtain ⟨hs, he⟩ := hg
  have hsub : (L ++ R).Sublist (L ++ g :: R) :=
    (List.sublist_cons_self g R).append_left L
  rw [RcvBuffer.shrinkGap]
  by_cases hend : g.start_ + 1 > g.end_
  · rw [if_pos hend]
    refine h.replace (K := []) hgap ⟨hs, he⟩ rfl rfl Intervals.normal_nil (fun x => ?_) ?_ ?_
      (hids.sublist (hsub.map _)) fun a ha => hfresh a (hsub.subset ha)
    · refine iff_of_false (fun ⟨_, ha, _⟩ => absurd ha List.not_mem_nil) ?_
      rintro ⟨⟨h1, h2⟩, h3⟩
      omega
    · cases L with
      | nil => exact absurd rfl hL
      | cons a L => exact hmax
    · dsimp only
      cases R with
      | nil => rw [if_pos (hlast.mpr rfl), List.append_nil]
      | cons r R =>
        rw [if_neg fun hno => absurd (hlast.mp hno) (List.cons_ne_nil r R), htail,
          ← List.getLast?_map]
        simp
  · rw [if_neg hend]
    refine h.replace (K := [{ g with start_ := g.start_ + 1 }]) hgap ⟨hs, he⟩ rfl rfl
      (normal_singleton (not_lt.mp hend)) (fun x => ?_) ?_ ?_ ?_ fun a ha => ?_
    · simp only [List.mem_singleton, exists_eq_left, Gap.Contains]
      omega
    · cases L with
      | nil => exact absurd rfl hL
      | cons a L => exact hmax
    · rw [← List.getLast?_map]
      simpa using htail
    · simpa using hids
    · rcases List.mem_append.mp ha with ha | ha
      · exact hfresh a (List.mem_append_left _ ha)
      · rcases List.mem_cons.mp ha with rfl | ha
        · exact hfresh g (by simp)
        · exact hfresh a (by simp [ha])

theorem shrinkFirst_counts : (b.shrinkFirst g R).duplicates_ = b.duplicates_ ∧
    (b.shrinkFirst g R).pkts_recovered_ = b.pkts_recovered_ := by
  rw [shrinkFirst.eq_def]
  dsimp only
  split_ifs
  · cases R <;> exact ⟨rfl, rfl⟩
  · exact ⟨rfl, rfl⟩

theorem splitGap_counts : (b.splitGap i L g R).duplicates_ = b.duplicates_ ∧
    (b.splitGap i L g R).pkts_recovered_ = b.pkts_recovered_ := by
  rw [splitGap]
  split_ifs <;> exact ⟨rfl, rfl⟩

theorem shrinkGap_counts : (b.shrinkGap L g R).duplicates_ = b.duplicates_ ∧
    (b.shrinkGap L g R).pkts_recovered_ = b.pkts_recovered_ := by
  rw [shrinkGap]
  split_ifs <;> exact ⟨rfl, rfl⟩

theorem locate_eq (K : List Gap) (h : ∃ g ∈ R, g.Contains i) :
    ∃ L g R', R = L ++ g :: R' ∧ g.Contains i ∧ locate i K R = some (K ++ L, g, R') := by
  induction R generalizing K with
  | nil =>
    obtain ⟨g, hg, -⟩ := h
    cases hg
  | cons a R ih =>
    rw [locate]
    by_cases ha : a.Contains i
    · exact ⟨[], a, R, rfl, ha, by rw [if_pos ha, List.append_nil]⟩
    · obtain ⟨g, hg, hgi⟩ := h
      rcases List.mem_cons.mp hg with rfl | hg
      · exact absurd hgi ha
      · obtain ⟨L, g, R', rfl, hgi, hl⟩ := ih (K ++ [a]) ⟨g, hg, hgi⟩
        exact ⟨a :: L, g, R', rfl, hgi, by rw [if_neg ha, hl, List.append_assoc]; rfl⟩

theorem recover_first (hgap : b.gap_ = g :: R) (hg : g.Contains i) : b.recover i tnow =
    some (if i = b.maxpkt_ + 1 then
      ({ b with pkts_recovered_ := b.pkts_recovered_ + 1 }.addDelay (tnow - g.time_)).shrinkFirst g R
    else
      ({ b with pkts_recovered_ := b.pkts_recovered_ + 1 }.addDelay (tnow - g.time_)).splitGap
        i [] g R) := by
  rw [recover]
  dsimp only
  rw [hgap]
  exact if_pos hg

theorem recover_later (hgap : b.gap_ = g :: R) (hg : ¬ g.Contains i) : b.recover i tnow =
    (locate i [g] R).map fun r =>
      if r.2.1.start_ = i then
        ({ b with pkts_recovered_ := b.pkts_recovered_ + 1 }.addDelay
          (tnow - r.2.1.time_)).shrinkGap r.1 r.2.1 r.2.2
      else
        ({ b with pkts_recovered_ := b.pkts_recovered_ + 1 }.addDelay
          (tnow - r.2.1.time_)).splitGap i r.1 r.2.1 r.2.2 := by
  rw [recover]
  dsimp only
  rw [hgap]
  exact if_neg hg

/-- A packet that was missing. -/
theorem Ok.recover (h : b.Ok rs) (hi : 0 ≤ i) (hlt : i < b.nextpkt_) (hout : i ∉ rs) :
    ∃ t, b.recover i tnow = some t ∧ t.Ok (rs ++ [i]) ∧
      t.duplicates_ = b.duplicates_ ∧ t.pkts_recovered_ = b.pkts_recovered_ + 1 := by
  have hin := (h.cover i).mpr ⟨hi, hlt, hout⟩
  cases hgap : b.gap_ with
  | nil =>
    rw [hgap] at hin
    obtain ⟨g, hg, -⟩ := hin
    cases hg
  | cons g R =>
    have hmax := h.maxpkt
    rw [hgap] at hmax
    change b.maxpkt_ + 1 = g.start_ at hmax
    by_cases hg : g.Contains i
    · rw [recover_first hgap hg]
      have hd := h.addDelay (b.pkts_recovered_ + 1) (tnow - g.time_)
      by_cases hfirst : i = b.maxpkt_ + 1
      · refine ⟨_, rfl, ?_, ?_⟩
        · rw [if_pos hfirst]
          exact hd.shrinkFirst hgap hg (hfirst.trans hmax)
        · rw [if_pos hfirst]
          exact shrinkFirst_counts
      · refine ⟨_, rfl, ?_, ?_⟩
        · rw [if_neg hfirst]
          exact hd.splitGap (L := []) hgap hg (by obtain ⟨h1, h2⟩ := hg; omega)
        · rw [if_neg hfirst]
          exact splitGap_counts
    · rw [recover_later hgap hg]
      rw [hgap] at hin
      obtain ⟨a, ha, hai⟩ := hin
      rcases List.mem_cons.mp ha with rfl | ha
      · exact absurd hai hg
      · obtain ⟨L, a, R', rfl, hai, hl⟩ := locate_eq [g] ⟨a, ha, hai⟩
        rw [hl]
        have hd := h.addDelay (b.pkts_recovered_ + 1) (tnow - a.time_)
        refine ⟨_, rfl, ?_, ?_⟩
        · dsimp only
          by_cases hs : a.start_ = i
          · rw [if_pos hs]
            exact hd.shrinkGap (L := [g] ++ L) hgap (by simp) hai hs
          · rw [if_neg hs]
            exact hd.splitGap (L := [g] ++ L) hgap hai (lt_of_le_of_ne hai.1 hs)
        · dsimp only
          by_cases hs : a.start_ = i
          · rw [if_pos hs]
            exact shrinkGap_counts
          · rw [if_neg hs]
            exact splitGap_counts

theorem Ok.repeated (h : b.Ok rs) (hi : i ∈ rs) (n : ℕ) :
    ({ b with duplicates_ := n } : RcvBuffer).Ok (rs ++ [i]) := by
  have hmem : ∀ x, x ∈ rs ++ [i] ↔ x ∈ rs := fun x => by
    rw [List.mem_append, List.mem_singleton]
    exact or_iff_left_of_imp fun hx => hx ▸ hi
  exact ⟨h.normal, fun x => (h.cover x).trans (by rw [hmem]), fun x hx => h.below x ((hmem x).mp hx),
    h.next.imp_right (hmem _).mpr, h.next_nonneg, h.maxpkt, h.tail, h.ids, h.fresh⟩

theorem mem_cons_append {seen is : List ℤ} {j x : ℤ} :
    x ∈ j :: seen ++ is ↔ x ∈ seen ++ j :: is := by
  simp only [List.cons_append, List.mem_cons, List.mem_append, or_left_comm]

theorem duplicateArrivals_append (seen is : List ℤ) (i : ℤ) :
    duplicateArrivals seen (is ++ [i]) =
      duplicateArrivals seen is + if i ∈ seen ++ is then 1 else 0 := by
  induction is generalizing seen with
  | nil => simp [duplicateArrivals]
  | cons j is ih =>
    rw [List.cons_append, duplicateArrivals, duplicateArrivals, ih, Nat.add_assoc]
    simp only [mem_cons_append]

theorem lateArrivals_append (seen is : List ℤ) (i : ℤ) :
    lateArrivals seen (is ++ [i]) = lateArrivals seen is +
      if i ∉ seen ++ is ∧ ∃ j ∈ seen ++ is, i < j then 1 else 0 := by
  induction is generalizing seen with
  | nil => simp [lateArrivals]
  | cons j is ih =>
    rw [List.cons_append, lateArrivals, lateArrivals, ih, Nat.add_assoc]
    simp only [mem_cons_append]

/-- Everything that a run of arrivals leaves behind. -/
structure Knows (rs : List ℤ) (b : RcvBuffer) : Prop extends b.Ok rs where
  duplicates : b.duplicates_ = duplicateArrivals [] rs
  recovered : b.pkts_recovered_ = lateArrivals [] rs

theorem knows_new : new.Knows [] := ⟨ok_new, rfl, rfl⟩

theorem Knows.add_pkt (h : b.Knows rs) (tnow : ℚ) (hi : 0 ≤ i) :
    ∃ t, b.add_pkt i tnow = some t ∧ t.Knows (rs ++ [i]) := by
  have hdup := duplicateArrivals_append [] rs i
  have hlate := lateArrivals_append [] rs i
  rw [← h.duplicates] at hdup
  rw [← h.recovered] at hlate
  rw [List.nil_append] at hdup hlate
  have hex := h.exists_pkt hi
  rw [RcvBuffer.add_pkt]
  by_cases hmem : i ∈ rs
  · rw [if_pos (hex.mpr hmem)]
    rw [if_pos hmem] at hdup
    rw [if_neg fun hno => hno.1 hmem] at hlate
    exact ⟨_, rfl, h.repeated hmem _, hdup.symm, hlate.symm⟩
  · rw [if_neg fun hno => hmem (hex.mp hno)]
    rw [if_neg hmem] at hdup
    have hnone : b.nextpkt_ ≤ i → ¬ ∃ j ∈ rs, i < j := fun hle ⟨j, hj, hij⟩ => by
      have := h.below j hj
      omega
    by_cases hnext : i = b.nextpkt_
    · rw [if_pos hnext]
      rw [if_neg fun hno => hnone hnext.ge hno.2] at hlate
      subst hnext
      exact ⟨_, rfl, h.expected, hdup.symm, hlate.symm⟩
    · rw [if_neg hnext]
      by_cases hgt : i > b.nextpkt_
      · rw [if_pos hgt]
        rw [if_neg fun hno => hnone hgt.le hno.2] at hlate
        obtain ⟨t, ht, hok, hd, hr⟩ := h.newGap hgt
        exact ⟨t, ht, hok, hd.trans hdup.symm, hr.trans hlate.symm⟩
      · rw [if_neg hgt]
        have hlt : i < b.nextpkt_ := by omega
        have hlast : ∃ j ∈ rs, i < j := by
          rcases h.next with hz | hlast
          · omega
          · refine ⟨_, hlast, ?_⟩
            have hne : i ≠ b.nextpkt_ - 1 := fun he => hmem (he ▸ hlast)
            omega
        rw [if_pos ⟨hmem, hlast⟩] at hlate
        obtain ⟨t, ht, hok, hd, hr⟩ := h.recover hi hlt hmem
        exact ⟨t, ht, hok, hd.trans hdup.symm, hr.trans hlate.symm⟩

/-- Whatever the order of the arrivals, the buffer knows which packets have arrived. -/
theorem run_knows (ps : List (ℤ × ℚ)) (h : ∀ p ∈ ps, 0 ≤ p.1) :
    ∃ b os, Machine.run step new ps = some (b, os) ∧
      Intervals.Normal Gap.start_ (fun g => g.end_ + 1) b.gap_ ∧
      (∀ x, (∃ g ∈ b.gap_, g.Contains x) ↔ 0 ≤ x ∧ x < b.nextpkt_ ∧ x ∉ ps.map Prod.fst) ∧
      (∀ p ∈ ps, p.1 < b.nextpkt_) ∧ (b.nextpkt_ = 0 ∨ b.nextpkt_ - 1 ∈ ps.map Prod.fst) ∧
      b.tail_ = b.gap_.getLast?.map (·.id) ∧
      (∀ x, 0 ≤ x → x ≤ b.maxpkt_ → x ∈ ps.map Prod.fst) ∧
      b.maxpkt_ + 1 ∉ ps.map Prod.fst ∧
      (∀ i, 0 ≤ i → (b.exists_pkt i = true ↔ i ∈ ps.map Prod.fst)) ∧
      b.duplicates_ = duplicateArrivals [] (ps.map Prod.fst) ∧
      b.pkts_recovered_ = lateArrivals [] (ps.map Prod.fst) := by
  have hadmits : Machine.Admits step (fun _ p => 0 ≤ p.1) new ps :=
    Machine.admits_of_forall h new
  obtain ⟨b, os, hrun, hk⟩ := Machine.run_history
    (I := fun ps (_ : List Unit) b => b.Knows (ps.map Prod.fst)) (fun ps _ b p hk hp => by
      obtain ⟨t, ht, hk'⟩ := hk.add_pkt p.2 hp
      refine ⟨t, (), by rw [step, ht]; rfl, ?_⟩
      rw [List.map_append]
      exact hk') knows_new hadmits
  have hok := hk.toOk
  refine ⟨b, os, hrun, hok.normal, hok.cover, fun p hp =>
    (hok.below p.1 (List.mem_map_of_mem hp)).2, hok.next, hok.tail, fun x h0 hx => hok.received_of_le h0 hx,
    hok.missing, fun i hi => hok.exists_pkt hi, hk.duplicates, hk.recovered⟩

theorem run_knows_six : ∃ b os,
    Machine.run step new [(0, 0), (4, 1), (2, 2), (1, 3), (2, 4), (3, 5)] = some (b, os) ∧
      b.gap_ = [] ∧ b.maxpkt_ = 4 ∧ b.duplicates_ = 1 ∧ b.pkts_recovered_ = 3 := by
  obtain ⟨b, os, hrun, -, -, -, -, -, -, -, -, hd, hr⟩ :=
    run_knows [(0, 0), (4, 1), (2, 2), (1, 3), (2, 4), (3, 5)] (by decide)
  refine ⟨b, os, hrun, ?_, ?_, hd, hr⟩
  · have hb := congrArg (Option.map fun r => r.1.gap_) hrun
    exact (Option.some.inj hb).symm
  · have hb := congrArg (Option.map fun r => r.1.maxpkt_) hrun
    exact (Option.some.inj hb).symm

end RcvBuffer

end Ns2
