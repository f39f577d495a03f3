import Ns2.Lib.TokenBucket

/-! The token bucket filter: packets leave at once while there are tokens for them, and wait in a
queue for a timer otherwise. -/

namespace Ns2

open TokenBucket

/-- A packet and its `ch->size()` in bytes. -/
structure TbfPacket where
  uid : ℕ
  size : ℕ
  deriving DecidableEq

/-- `pktsize`, in bits -/
def TbfPacket.pktsize (p : TbfPacket) : ℚ := (p.size * 8 : ℕ)

/-- The timer is the time at which it expires, if it runs. -/
structure TBF where
  tokens : ℚ
  rate : ℚ
  bucket : ℚ
  qlen : ℤ
  lastupdatetime : ℚ
  q : List TbfPacket
  tbf_timer : Option ℚ
  init : Bool

namespace TBF

inductive Event
  | recv (p : TbfPacket) (now : ℚ)
  | timeout (now : ℚ)
  deriving DecidableEq

inductive Output
  | sent (p : TbfPacket)
  | dropped (p : TbfPacket)
  | queued
  deriving DecidableEq

def getupdatedtokens (s : TBF) (now : ℚ) : TBF :=
  { s with
    tokens :=
      if s.tokens + (now - s.lastupdatetime) * s.rate > s.bucket then s.bucket
      else s.tokens + (now - s.lastupdatetime) * s.rate
    lastupdatetime := now }

/-- The bucket is full when the first packet comes. -/
def start (s : TBF) (now : ℚ) : TBF :=
  if s.init then { s with tokens := s.bucket, lastupdatetime := now, init := false } else s

/-- `tbf_timer_.resched((pktsize-tokens_)/rate_)` -/
def resched (s : TBF) (p : TbfPacket) (now : ℚ) : Option ℚ :=
  some (now + (p.pktsize - s.tokens) / s.rate)

/-- `recv` after `init_` was looked at. -/
def arrive (s : TBF) (p : TbfPacket) (now : ℚ) : TBF × Output :=
  if s.q ≠ [] then
    if (s.q.length : ℤ) < s.qlen then ({ s with q := s.q ++ [p] }, .queued) else (s, .dropped p)
  else
    let s := s.getupdatedtokens now
    if s.tokens ≥ p.pktsize then ({ s with tokens := s.tokens - p.pktsize }, .sent p)
    else if s.qlen ≠ 0 then ({ s with q := s.q ++ [p], tbf_timer := s.resched p now }, .queued)
    else (s, .dropped p)

def recv (s : TBF) (p : TbfPacket) (now : ℚ) : TBF × Output := (s.start now).arrive p now

/-- `none` if there is no packet, where the program ends. -/
def timeout (s : TBF) (now : ℚ) : Option (TBF × Output) :=
  match s.q with
  | [] => none
  | p :: q =>
    let s := { s with q := q }.getupdatedtokens now
    let s := { s with tokens := s.tokens - p.pktsize }
    some ({ s with tbf_timer := q.head?.bind fun p => s.resched p now }, .sent p)

def step (s : TBF) : Event → Option (TBF × Output)
  | .recv p now => some (s.recv p now)
  | .timeout now => s.timeout now

/-- A filter that has not seen a packet. -/
def fresh (rate bucket : ℚ) (qlen : ℤ) : TBF := ⟨0, rate, bucket, qlen, 0, [], none, true⟩

/-- The clock does not go back, no packet is longer than `L`, and the timer expires when it is
due. -/
def Timely (L : ℚ) (s : TBF) : Event → Prop
  | .recv p now => s.lastupdatetime ≤ now ∧ p.pktsize ≤ L
  | .timeout now => s.tbf_timer = some now

instance (L : ℚ) (s : TBF) : ∀ e, Decidable (s.Timely L e)
  | .recv _ _ => inferInstanceAs (Decidable (_ ∧ _))
  | .timeout _ => inferInstanceAs (Decidable (_ = _))

/-- The timer runs while packets wait, until there are the tokens for the first of them. -/
structure Inv (rate bucket L : ℚ) (s : TBF) : Prop where
  rate_eq : s.rate = rate
  bucket_eq : s.bucket = bucket
  idle : s.init = true → s.q = []
  low : s.init = false → 0 ≤ s.tokens + (max bucket L - bucket)
  high : s.init = false → s.tokens ≤ bucket
  sizes : ∀ p ∈ s.q, p.pktsize ≤ L
  timer : s.tbf_timer = s.q.head?.bind fun p => s.resched p s.lastupdatetime
  waits : ∀ p ∈ s.q.head?, s.tokens ≤ p.pktsize

/-- The tokens, with those that a packet larger than the bucket may borrow. -/
def level (bucket L : ℚ) (s : TBF) : ℚ :=
  if s.init then max bucket L else s.tokens + (max bucket L - bucket)

variable {rate bucket L : ℚ} {s t : TBF} {e : Event} {o : Output}

/-- When a packet was sent, and its size. -/
def spent : Event → Output → Option (ℚ × ℚ)
  | .recv _ now, .sent p => some (now, p.pktsize)
  | .timeout now, .sent p => some (now, p.pktsize)
  | _, _ => none

theorem pktsize_nonneg (p : TbfPacket) : 0 ≤ p.pktsize := Nat.cast_nonneg _

theorem getupdatedtokens_tokens (s : TBF) (now : ℚ) : (s.getupdatedtokens now).tokens =
    min (s.tokens + s.rate * (now - s.lastupdatetime)) s.bucket := by
  rw [getupdatedtokens, mul_comm s.rate, min_def]
  dsimp only
  split_ifs with h1 h2 h2
  · exact absurd h2 (not_le.mpr h1)
  · rfl
  · rfl
  · exact absurd (not_lt.mp h1) h2

/-- After the first packet, the level is refilled as the tokens are. -/
theorem refill_level (s : TBF) (hbucket : s.bucket = bucket) (now : ℚ) :
    (s.getupdatedtokens now).tokens + (max bucket L - bucket) =
      refill (max bucket L) s.rate (s.tokens + (max bucket L - bucket)) s.lastupdatetime now := by
  rw [getupdatedtokens_tokens, hbucket, refill, min_add]
  congr 1 <;> ring

theorem slack_nonneg (bucket L : ℚ) : 0 ≤ max bucket L - bucket :=
  sub_nonneg.mpr (le_max_left bucket L)

/-- The first packet finds the bucket full. -/
theorem Inv.start (hs : s.Inv rate bucket L) (hbucket : 0 ≤ bucket) {now : ℚ}
    (hnow : s.lastupdatetime ≤ now) :
    (s.start now).Inv rate bucket L ∧ (s.start now).init = false ∧ (s.start now).q = s.q ∧
      s.lastupdatetime ≤ (s.start now).lastupdatetime ∧ (s.start now).lastupdatetime ≤ now ∧
      (s.start now).level bucket L = s.level bucket L := by
  rw [TBF.start]
  split_ifs with hinit
  · have hq := hs.idle hinit
    refine ⟨⟨hs.rate_eq, hs.bucket_eq, fun _ => hq, fun _ => ?_, fun _ => hs.bucket_eq.le,
      hs.sizes, ?_, ?_⟩, rfl, rfl, hnow, le_rfl, ?_⟩
    · rw [hs.bucket_eq]
      exact add_nonneg hbucket (slack_nonneg bucket L)
    · rw [hs.timer, hq]
      rfl
    · rw [hq]
      simp
    · rw [level, level, if_pos hinit, if_neg (by simp), hs.bucket_eq, add_sub_cancel]
  · exact ⟨hs, by simpa using hinit, rfl, le_rfl, hnow, rfl⟩

/-- What is spent is paid from the level. -/
def Pays (rate bucket L : ℚ) (s t : TBF) (e : Event) (o : Output) : Prop :=
  (spent e o = none →
    t.level bucket L ≤ s.level bucket L + rate * (t.lastupdatetime - s.lastupdatetime)) ∧
  ∀ p, spent e o = some p → t.lastupdatetime = p.1 ∧
    p.2 + t.level bucket L ≤ refill (max bucket L) rate (s.level bucket L) s.lastupdatetime p.1

theorem level_eq (hinit : s.init = false) :
    s.level bucket L = s.tokens + (max bucket L - bucket) := by
  rw [level, if_neg (by simp [hinit])]

theorem level_spend {p : TbfPacket} (hs : s.init = false) (ht : t.init = false)
    (htokens : t.tokens = s.tokens - p.pktsize) :
    p.pktsize + t.level bucket L = s.level bucket L := by
  rw [level_eq hs, level_eq ht, htokens]
  ring

theorem Inv.level_nonneg (hs : s.Inv rate bucket L) (hbucket : 0 ≤ bucket) :
    0 ≤ s.level bucket L := by
  cases hinit : s.init with
  | true =>
    rw [level, if_pos hinit]
    exact hbucket.trans (le_max_left _ _)
  | false =>
    rw [level_eq hinit]
    exact hs.low hinit

theorem Inv.level_update (hs : s.Inv rate bucket L) (hinit : s.init = false) (now : ℚ) :
    (s.getupdatedtokens now).level bucket L =
      refill (max bucket L) rate (s.level bucket L) s.lastupdatetime now := by
  rw [level_eq hinit, level_eq (s := s.getupdatedtokens now) hinit, refill_level s hs.bucket_eq,
    hs.rate_eq]

theorem Inv.update (hs : s.Inv rate bucket L) (hrate : 0 ≤ rate) (hinit : s.init = false)
    (hq : s.q = []) {now : ℚ} (hnow : s.lastupdatetime ≤ now) :
    (s.getupdatedtokens now).Inv rate bucket L := by
  refine ⟨hs.rate_eq, hs.bucket_eq, hs.idle, fun _ => ?_, fun _ => ?_, hs.sizes, ?_, ?_⟩
  · rw [refill_level s hs.bucket_eq]
    have hhigh := hs.high hinit
    exact refill_nonneg (hs.rate_eq ▸ hrate) hnow (hs.low hinit) (by linarith)
  · rw [getupdatedtokens_tokens, hs.bucket_eq]
    exact min_le_right _ _
  · rw [getupdatedtokens, hs.timer, hq]
    rfl
  · rw [getupdatedtokens, hq]
    simp

/-- A packet for which there are tokens. -/
theorem Inv.send (hs : s.Inv rate bucket L) (hinit : s.init = false) (hq : s.q = [])
    {p : TbfPacket} (hp : p.pktsize ≤ s.tokens) :
    { s with tokens := s.tokens - p.pktsize }.Inv rate bucket L := by
  have hslack := slack_nonneg bucket L
  have hsize := pktsize_nonneg p
  have hhigh := hs.high hinit
  refine ⟨hs.rate_eq, hs.bucket_eq, hs.idle, fun _ => ?_, fun _ => ?_, hs.sizes, ?_, ?_⟩
  · dsimp only
    linarith
  · dsimp only
    linarith
  · rw [hs.timer, hq]
    rfl
  · rw [hq]
    simp

/-- A packet that has to wait for tokens. -/
theorem Inv.wait (hs : s.Inv rate bucket L) (hinit : s.init = false) (hq : s.q = [])
    {p : TbfPacket} (hp : s.tokens < p.pktsize) (hL : p.pktsize ≤ L) :
    { s with q := s.q ++ [p], tbf_timer := s.resched p s.lastupdatetime }.Inv rate bucket L := by
  refine ⟨hs.rate_eq, hs.bucket_eq, fun h => absurd h (by simp [hinit]), hs.low, hs.high, ?_, ?_,
    ?_⟩
  · rw [hq]
    simpa using hL
  · rw [hq]
    rfl
  · rw [hq]
    simpa using hp.le

/-- A packet behind others. -/
theorem Inv.enque (hs : s.Inv rate bucket L) (hinit : s.init = false) (hq : s.q ≠ [])
    {p : TbfPacket} (hL : p.pktsize ≤ L) : { s with q := s.q ++ [p] }.Inv rate bucket L := by
  refine ⟨hs.rate_eq, hs.bucket_eq, fun h => absurd h (by simp [hinit]), hs.low, hs.high, ?_, ?_,
    ?_⟩
  · exact List.forall_mem_append.mpr ⟨hs.sizes, by simpa using hL⟩
  · rw [hs.timer, List.head?_append_of_ne_nil _ hq]
    rfl
  · rw [List.head?_append_of_ne_nil _ hq]
    exact hs.waits

theorem Pays.of_start {u : TBF} (h : Pays rate bucket L u t e o) (hrate : 0 ≤ rate)
    (hlast : s.lastupdatetime ≤ u.lastupdatetime) (hlevel : u.level bucket L = s.level bucket L) :
    Pays rate bucket L s t e o := by
  refine ⟨fun hspent => (h.1 hspent).trans ?_, fun p hp => ?_⟩
  · rw [hlevel]
    gcongr
  · obtain ⟨ht, hle⟩ := h.2 p hp
    refine ⟨ht, hle.trans ?_⟩
    rw [hlevel, refill, refill]
    gcongr

theorem pays_unchanged (hlevel : t.level bucket L = s.level bucket L)
    (hlast : t.lastupdatetime = s.lastupdatetime) (hspent : spent e o = none) :
    Pays rate bucket L s t e o := by
  refine ⟨fun _ => ?_, fun p hp => absurd (hspent.symm.trans hp) (by simp)⟩
  rw [hlevel, hlast, sub_self, mul_zero, add_zero]

theorem pays_refilled {now : ℚ}
    (hlevel : t.level bucket L = refill (max bucket L) rate (s.level bucket L) s.lastupdatetime now)
    (hlast : t.lastupdatetime = now) (hspent : spent e o = none) : Pays rate bucket L s t e o := by
  refine ⟨fun _ => ?_, fun p hp => absurd (hspent.symm.trans hp) (by simp)⟩
  rw [hlevel, hlast]
  exact min_le_left _ _

theorem pays_sent (now : ℚ) {p : TbfPacket} (hlevel : p.pktsize + t.level bucket L =
      refill (max bucket L) rate (s.level bucket L) s.lastupdatetime now)
    (hlast : t.lastupdatetime = now) (hspent : spent e o = some (now, p.pktsize)) :
    Pays rate bucket L s t e o := by
  refine ⟨fun h => absurd (hspent.symm.trans h) (by simp), fun q hq => ?_⟩
  obtain rfl := Option.some.inj (hspent.symm.trans hq)
  exact ⟨hlast, hlevel.le⟩

theorem Inv.arrive (hs : s.Inv rate bucket L) (hrate : 0 ≤ rate) (hinit : s.init = false)
    {p : TbfPacket} {now : ℚ} (hnow : s.lastupdatetime ≤ now) (hp : p.pktsize ≤ L) :
    (s.arrive p now).1.Inv rate bucket L ∧
      Pays rate bucket L s (s.arrive p now).1 (.recv p now) (s.arrive p now).2 := by
  by_cases hq : s.q = []
  · have hupdate := hs.update hrate hinit hq hnow
    have hlevel := hs.level_update hinit now
    rw [TBF.arrive, if_neg (not_not.mpr hq)]
    dsimp only
    split_ifs with hsend hqueue
    · refine ⟨hupdate.send hinit hq hsend, pays_sent now (p := p) ?_ rfl rfl⟩
      rw [← hlevel]
      exact level_spend hinit hinit rfl
    · exact ⟨hupdate.wait hinit hq (not_le.mp hsend) hp, pays_refilled hlevel rfl rfl⟩
    · exact ⟨hupdate, pays_refilled hlevel rfl rfl⟩
  · rw [TBF.arrive, if_pos hq]
    split_ifs with hroom
    · exact ⟨hs.enque hinit hq hp, pays_unchanged rfl rfl rfl⟩
    · exact ⟨hs, pays_unchanged rfl rfl rfl⟩

/-- When the timer expires there are as many tokens as the first packet needs or the bucket
holds. -/
theorem Inv.timeout (hs : s.Inv rate bucket L) (hrate : 0 < rate) (hbucket : 0 ≤ bucket) {now : ℚ}
    (hnow : s.tbf_timer = some now) : ∃ t p, s.q = p :: t.q ∧ s.timeout now = some (t, .sent p) ∧
      t.Inv rate bucket L ∧ Pays rate bucket L s t (.timeout now) (.sent p) := by
  have htimer := hs.timer
  rw [hnow] at htimer
  cases hq : s.q with
  | nil => simp [hq] at htimer
  | cons p q =>
    have hinit : s.init = false := by
      by_contra hne
      exact List.cons_ne_nil p q (hq.symm.trans (hs.idle (by simpa using hne)))
    have hwait := hs.waits p (by simp [hq])
    have hsize := pktsize_nonneg p
    obtain ⟨hp, hsizes⟩ := List.forall_mem_cons.mp (hq ▸ hs.sizes)
    have hdue : now = s.lastupdatetime + (p.pktsize - s.tokens) / rate := by
      simpa [hq, resched, hs.rate_eq] using htimer
    have hgrow : s.tokens + rate * (now - s.lastupdatetime) = p.pktsize := by
      rw [hdue, add_sub_cancel_left, mul_div_cancel₀ _ hrate.ne', add_sub_cancel]
    let u := { s with q := q }.getupdatedtokens now
    have htokens : u.tokens = min p.pktsize bucket := by
      rw [getupdatedtokens_tokens, hs.bucket_eq, hs.rate_eq, hgrow]
    have hlevel : u.level bucket L =
        refill (max bucket L) rate (s.level bucket L) s.lastupdatetime now :=
      hs.level_update hinit now
    have hlow : 0 ≤ u.tokens - p.pktsize + (max bucket L - bucket) := by
      rw [htokens]
      rcases min_cases p.pktsize bucket with ⟨h, -⟩ | ⟨h, -⟩
      · rw [h, sub_self, zero_add]
        exact slack_nonneg bucket L
      · have := le_max_right bucket L
        rw [h]
        linarith
    have hempty : u.tokens - p.pktsize ≤ 0 := by
      have := min_le_left p.pktsize bucket
      linarith
    let r := { u with tokens := u.tokens - p.pktsize }
    refine ⟨{ r with tbf_timer := q.head?.bind fun p => r.resched p now }, p, rfl, ?_,
      ⟨hs.rate_eq, hs.bucket_eq, ?_, fun _ => hlow, fun _ => hempty.trans hbucket, hsizes, rfl, ?_⟩,
      pays_sent now ?_ rfl rfl⟩
    · rw [TBF.timeout, hq]
    · exact fun h => absurd (hinit.symm.trans h) (by simp)
    · exact fun x _ => hempty.trans (pktsize_nonneg x)
    · rw [← hlevel]
      exact level_spend hinit hinit rfl

theorem step_spec (hrate : 0 < rate) (hbucket : 0 ≤ bucket) (hs : s.Inv rate bucket L)
    (he : s.Timely L e) (h : s.step e = some (t, o)) :
    t.Inv rate bucket L ∧ Pays rate bucket L s t e o := by
  cases e with
  | recv p now =>
    obtain ⟨hnow, hp⟩ := he
    obtain ⟨hstart, hinit, -, hle, hnow', hlevel⟩ := hs.start hbucket hnow
    obtain ⟨ht, hpays⟩ := hstart.arrive hrate.le hinit hnow' hp
    obtain ⟨rfl, rfl⟩ := Prod.mk.inj (Option.some.inj h)
    exact ⟨ht, hpays.of_start hrate.le hle hlevel⟩
  | timeout now =>
    obtain ⟨t', p, -, hstep, ht⟩ := hs.timeout hrate hbucket he
    obtain ⟨rfl, rfl⟩ := Prod.mk.inj (Option.some.inj (hstep.symm.trans h))
    exact ht

/-- What leaves the filter. -/
def departures (es : List Event) (os : List Output) : List (ℚ × ℚ) :=
  (es.zip os).filterMap fun x => spent x.1 x.2

theorem fresh_inv (rate bucket L : ℚ) (qlen : ℤ) : (fresh rate bucket qlen).Inv rate bucket L where
  rate_eq := rfl
  bucket_eq := rfl
  idle _ := rfl
  low h := absurd h (by simp [fresh])
  high h := absurd h (by simp [fresh])
  sizes := by simp [fresh]
  timer := rfl
  waits := by simp [fresh]

/-- The filter never sends more in a time than its rate, and once the bucket, or one packet if that
is larger. -/
theorem departures_conform {qlen : ℤ} {es : List Event} {os : List Output} (hrate : 0 < rate)
    (hbucket : 0 ≤ bucket) (hok : Machine.Admits step (Timely L) (fresh rate bucket qlen) es)
    (h : Machine.run step (fresh rate bucket qlen) es = some (t, os)) :
    Conforms (max bucket L) rate (departures es os) :=
  (fits_iff.mp (fits_of_pays (I := Inv rate bucket L) (level bucket L) lastupdatetime spent
    (fun _ hs => hs.level_nonneg hbucket)
    (fun _ _ _ _ hs he hstep => step_spec hrate hbucket hs he hstep) (fresh_inv rate bucket L qlen)
    hok h)).2

/-- The packets that a list of events brings, without those dropped. -/
def accepted (es : List Event) (os : List Output) : List TbfPacket :=
  (es.zip os).filterMap fun
    | (.recv _ _, .dropped _) => none
    | (.recv p _, _) => some p
    | (.timeout _, _) => none

def sentPackets (os : List Output) : List TbfPacket :=
  os.filterMap fun
    | .sent p => some p
    | _ => none

/-- What one event brings and sends, and the queue after it. -/
theorem admit_order (s : TBF) (p : TbfPacket) (now : ℚ) :
    s.q ++ accepted [.recv p now] [(s.arrive p now).2] =
      sentPackets [(s.arrive p now).2] ++ (s.arrive p now).1.q ∧ (s.arrive p now).1.qlen = s.qlen ∧
      ((s.q.length : ℤ) ≤ s.qlen → 0 ≤ s.qlen →
        ((s.arrive p now).1.q.length : ℤ) ≤ s.qlen) := by
  rw [TBF.arrive]
  split_ifs with hq hroom
  · refine ⟨rfl, rfl, fun _ _ => ?_⟩
    rw [List.length_append, List.length_singleton]
    omega
  · exact ⟨by simp [accepted, sentPackets], rfl, fun h _ => h⟩
  · rw [not_not] at hq
    dsimp only
    split_ifs with hsend hqueue
    · exact ⟨by simp [accepted, sentPackets, getupdatedtokens, hq], rfl, fun h _ => h⟩
    · refine ⟨rfl, rfl, fun _ hpos => ?_⟩
      have : s.qlen ≠ 0 := hqueue
      simp only [getupdatedtokens, hq, List.nil_append, List.length_singleton]
      omega
    · exact ⟨by simp [accepted, sentPackets, getupdatedtokens], rfl, fun h _ => h⟩

theorem accepted_cons (e : Event) (o : Output) (es : List Event) (os : List Output) :
    accepted (e :: es) (o :: os) = accepted [e] [o] ++ accepted es os :=
  List.filterMap_append (l := [(e, o)])

theorem sentPackets_cons (o : Output) (os : List Output) :
    sentPackets (o :: os) = sentPackets [o] ++ sentPackets os :=
  List.filterMap_append (l := [o])

/-- A step is taken whenever it is due, and keeps the order of the packets. -/
theorem step_order (hrate : 0 < rate) (hbucket : 0 ≤ bucket) (hs : s.Inv rate bucket L)
    (he : s.Timely L e) (hqlen : 0 ≤ s.qlen) (hlen : (s.q.length : ℤ) ≤ s.qlen) :
    ∃ t o, s.step e = some (t, o) ∧ t.Inv rate bucket L ∧ t.qlen = s.qlen ∧
      (t.q.length : ℤ) ≤ s.qlen ∧ s.q ++ accepted [e] [o] = sentPackets [o] ++ t.q := by
  cases e with
  | recv p now =>
    obtain ⟨-, -, hq, -⟩ := hs.start hbucket he.1
    obtain ⟨horder, hsame, hle⟩ := admit_order (s.start now) p now
    have hqlen' : (s.start now).qlen = s.qlen := by
      rw [start]
      split_ifs <;> rfl
    rw [hq, hqlen'] at hle
    rw [hq] at horder
    exact ⟨_, _, rfl, (step_spec hrate hbucket hs he rfl).1, hsame.trans hqlen', hle hlen hqlen,
      horder⟩
  | timeout now =>
    obtain ⟨t, p, hq, hstep, ht, -⟩ := hs.timeout hrate hbucket he
    refine ⟨t, .sent p, hstep, ht, ?_, ?_, by rw [hq]; simp [accepted, sentPackets]⟩
    · rw [TBF.timeout, hq] at hstep
      exact (congrArg qlen (Prod.mk.inj (Option.some.inj hstep)).1).symm
    · rw [hq, List.length_cons] at hlen
      omega

theorem run_order {es : List Event} (hrate : 0 < rate) (hbucket : 0 ≤ bucket)
    (hs : s.Inv rate bucket L) (hqlen : 0 ≤ s.qlen) (hlen : (s.q.length : ℤ) ≤ s.qlen)
    (hok : Machine.Admits step (Timely L) s es) :
    ∃ t os, Machine.run step s es = some (t, os) ∧ t.Inv rate bucket L ∧
      (t.q.length : ℤ) ≤ s.qlen ∧ s.q ++ accepted es os = sentPackets os ++ t.q := by
  induction es generalizing s with
  | nil => exact ⟨s, [], rfl, hs, hlen, by simp [accepted, sentPackets]⟩
  | cons e es ih =>
    obtain ⟨u, o, hstep, hu, hsame, hlen', horder⟩ :=
      step_order hrate hbucket hs hok.1 hqlen hlen
    obtain ⟨t, os, hrun, ht, hle, hrest⟩ :=
      ih hu (hsame ▸ hqlen) (hsame ▸ hlen') (hok.2 u o hstep)
    refine ⟨t, o :: os, by rw [Machine.run_cons_some hstep, hrun]; rfl, ht, hsame ▸ hle, ?_⟩
    rw [accepted_cons, sentPackets_cons, ← List.append_assoc, horder, List.append_assoc, hrest,
      List.append_assoc]

/-- The filter never ends the program. Packets that it does not drop leave in the order in which
they came, no more than `qlen` wait, and the timer runs while there are any. -/
theorem leaves_in_order {qlen : ℤ} {es : List Event} (hrate : 0 < rate) (hbucket : 0 ≤ bucket)
    (hqlen : 0 ≤ qlen) (hok : Machine.Admits step (Timely L) (fresh rate bucket qlen) es) :
    ∃ t os, Machine.run step (fresh rate bucket qlen) es = some (t, os) ∧
      accepted es os = sentPackets os ++ t.q ∧ (t.q.length : ℤ) ≤ qlen ∧
      (t.tbf_timer = none ↔ t.q = []) := by
  obtain ⟨t, os, hrun, ht, hlen, horder⟩ :=
    run_order hrate hbucket (fresh_inv rate bucket L qlen) hqlen hqlen hok
  refine ⟨t, os, hrun, horder, hlen, ?_⟩
  rw [ht.timer]
  cases t.q with
  | nil => simp
  | cons p q => simp [resched]

/-- Two packets of 1000 bits in a bucket of 1500: the second waits half a second. -/
def twoPackets : List Event := [.recv ⟨0, 125⟩ 0, .recv ⟨1, 125⟩ 0, .timeout (1 / 2)]

theorem leaves_in_order_two : ∃ t os, Machine.run step (fresh 1000 1500 10) twoPackets =
      some (t, os) ∧ accepted twoPackets os = sentPackets os ++ t.q ∧ (t.q.length : ℤ) ≤ 10 ∧
      (t.tbf_timer = none ↔ t.q = []) :=
  leaves_in_order (L := 1000) (by norm_num) (by norm_num) (by norm_num) (by decide +kernel)

theorem departures_conform_two : ∃ t os, Machine.run step (fresh 1000 1500 10) twoPackets =
      some (t, os) ∧ Conforms (max 1500 1000) 1000 (departures twoPackets os) := by
  have hrun : (Machine.run step (fresh 1000 1500 10) twoPackets).isSome = true := by
    decide +kernel
  obtain ⟨⟨t, os⟩, h⟩ := Option.isSome_iff_exists.mp hrun
  exact ⟨t, os, h, departures_conform (by norm_num) (by norm_num) (by decide +kernel) h⟩

end TBF

end Ns2
