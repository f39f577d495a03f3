import Ns2.Dsdv.DsdvProcess

/-! When the loops of `processUpdate` end: packets that wait on an entry which stays unusable come
back to their queue until `recv` drops them. -/

namespace Ns2.DsdvNode

variable {myaddr_ : Nsaddr} {usable : Bool}

/-! ### The loop over the packets that wait -/

/-- `recv` never drops the packet: it is the node's own, or has a TTL that can not come to zero. -/
def Lasting (myaddr_ : Nsaddr) (p : DsdvPacket) : Prop :=
  p.saddr = myaddr_ ∧ p.num_forwards = 0 ∨ p.saddr ≠ myaddr_ ∧ p.ttl ≤ 0

instance (myaddr_ : Nsaddr) : DecidablePred (Lasting myaddr_) := fun _ =>
  inferInstanceAs (Decidable (_ ∨ _))

/-- The queue after the first packet that comes back to it. -/
def kept (myaddr_ : Nsaddr) : List DsdvPacket → List DsdvPacket
  | [] => []
  | p :: q => (recvChecks myaddr_ p).elim (kept myaddr_ q) fun p => dsdvTrim (q ++ [p])

def Ends (myaddr_ : Nsaddr) (usable : Bool) (q : List DsdvPacket) : Prop :=
  ∃ fuel out, drain myaddr_ usable fuel q = some out

theorem lasting_foreign {p : DsdvPacket} (hs : p.saddr ≠ myaddr_) :
    Lasting myaddr_ p ↔ p.ttl ≤ 0 := by
  simp [Lasting, hs]

theorem recvChecks_cases (myaddr_ : Nsaddr) (p : DsdvPacket) :
    (recvChecks myaddr_ p = none ∧ ¬ Lasting myaddr_ p) ∨
    ∃ p', recvChecks myaddr_ p = some p' ∧ (Lasting myaddr_ p' ↔ Lasting myaddr_ p) ∧
      (¬ Lasting myaddr_ p → p'.ttl.toNat < p.ttl.toNat) := by
  unfold recvChecks
  by_cases hs : p.saddr = myaddr_
  · by_cases hf : p.num_forwards = 0
    · have hl : Lasting myaddr_ p := .inl ⟨hs, hf⟩
      exact .inr ⟨_, if_pos ⟨hs, hf⟩, iff_of_true (.inl ⟨hs, hf⟩) hl, fun hno => absurd hl hno⟩
    · left
      rw [if_neg fun h => hf h.2, if_pos hs]
      exact ⟨rfl, by simp [Lasting, hs, hf]⟩
  · rw [if_neg fun h => hs h.1, if_neg hs, lasting_foreign hs]
    by_cases ht : p.ttl - 1 = 0
    · left
      rw [if_pos ht]
      exact ⟨rfl, by omega⟩
    · right
      rw [if_neg ht]
      have hl : Lasting myaddr_ { p with ttl := p.ttl - 1 } ↔ p.ttl - 1 ≤ 0 := lasting_foreign hs
      refine ⟨_, rfl, hl.trans ?_, ?_⟩
      · omega
      · dsimp only
        omega

theorem ends_nil : Ends myaddr_ usable [] := ⟨1, [], rfl⟩

theorem ends_dropped {p : DsdvPacket} {q : List DsdvPacket} (hp : recvChecks myaddr_ p = none) :
    Ends myaddr_ usable (p :: q) ↔ Ends myaddr_ usable q := by
  constructor
  · rintro ⟨fuel, out, h⟩
    cases fuel with
    | zero => cases h
    | succ fuel =>
      rw [drain, hp] at h
      exact ⟨fuel, out, h⟩
  · rintro ⟨fuel, out, h⟩
    exact ⟨fuel + 1, out, by rw [drain, hp]; exact h⟩

theorem ends_sent {p p' : DsdvPacket} {q : List DsdvPacket} (hp : recvChecks myaddr_ p = some p')
    (h : Ends myaddr_ true q) : Ends myaddr_ true (p :: q) := by
  obtain ⟨fuel, out, h⟩ := h
  refine ⟨fuel + 1, p' :: out, ?_⟩
  rw [drain, hp, Option.elim_some, if_pos rfl, h, Option.map_some]

theorem ends_queued {p p' : DsdvPacket} {q : List DsdvPacket}
    (hp : recvChecks myaddr_ p = some p') :
    Ends myaddr_ false (p :: q) ↔ Ends myaddr_ false (dsdvTrim (q ++ [p'])) := by
  constructor
  · rintro ⟨fuel, out, h⟩
    cases fuel with
    | zero => cases h
    | succ fuel =>
      rw [drain, hp] at h
      exact ⟨fuel, out, h⟩
  · rintro ⟨fuel, out, h⟩
    exact ⟨fuel + 1, out, by rw [drain, hp]; exact h⟩

theorem ends_usable (q : List DsdvPacket) : Ends myaddr_ true q := by
  induction q with
  | nil => exact ends_nil
  | cons p q ih =>
    rcases recvChecks_cases myaddr_ p with ⟨hp, -⟩ | ⟨p', hp, -⟩
    · exact (ends_dropped hp).mpr ih
    · exact ends_sent hp ih

theorem trim_subset {q : List DsdvPacket} {p : DsdvPacket} (hp : p ∈ dsdvTrim q) : p ∈ q :=
  List.mem_of_mem_drop hp

theorem trim_length (q : List DsdvPacket) : (dsdvTrim q).length ≤ 5 := by
  rw [dsdvTrim, List.length_drop]
  omega

theorem trim_of_le {q : List DsdvPacket} (hq : q.length ≤ 5) : dsdvTrim q = q := by
  rw [dsdvTrim, Nat.sub_eq_zero_of_le hq, List.drop_zero]

/-- The rounds that the packets can still make. -/
def rounds (q : List DsdvPacket) : ℕ := (q.map fun p => p.ttl.toNat + 1).sum

theorem rounds_trim (q : List DsdvPacket) : rounds (dsdvTrim q) ≤ rounds q := by
  have hsplit : rounds (q.take (q.length - 5)) + rounds (dsdvTrim q) = rounds q := by
    rw [rounds, rounds, rounds, dsdvTrim, ← List.sum_append, ← List.map_append,
      List.take_append_drop]
  omega

theorem ends_of_mortal {q : List DsdvPacket} (hq : ∀ p ∈ q, ¬ Lasting myaddr_ p) :
    Ends myaddr_ false q := by
  induction hn : rounds q using Nat.strong_induction_on generalizing q with
  | _ n ih =>
    cases q with
    | nil => exact ends_nil
    | cons p q =>
      obtain ⟨hpl, hql⟩ := List.forall_mem_cons.mp hq
      have hcons : rounds (p :: q) = p.ttl.toNat + 1 + rounds q := rfl
      rcases recvChecks_cases myaddr_ p with ⟨hp, -⟩ | ⟨p', hp, hl, hless⟩
      · exact (ends_dropped hp).mpr (ih (rounds q) (by omega) hql rfl)
      · have hlt := hless hpl
        have happ : rounds (q ++ [p']) = rounds q + (p'.ttl.toNat + 1) := by
          simp [rounds]
        have htrim := rounds_trim (q ++ [p'])
        refine (ends_queued hp).mpr (ih _ (by omega) (fun x hx => ?_) rfl)
        rcases List.mem_append.mp (trim_subset hx) with hx | hx
        · exact hql x hx
        · rw [List.mem_singleton.mp hx, hl]
          exact hpl

/-- A packet that is never dropped comes back for ever. -/
theorem drain_lasting {q : List DsdvPacket} (hlen : q.length ≤ 5) {p : DsdvPacket} (hp : p ∈ q)
    (hl : Lasting myaddr_ p) (fuel : ℕ) : drain myaddr_ false fuel q = none := by
  induction fuel generalizing q p with
  | zero => rfl
  | succ fuel ih =>
    cases q with
    | nil => cases hp
    | cons x q =>
      rw [List.length_cons] at hlen
      rw [drain]
      rcases recvChecks_cases myaddr_ x with ⟨hx, hno⟩ | ⟨x', hx, hxl, -⟩
      · rw [hx, Option.elim_none]
        rcases List.mem_cons.mp hp with rfl | hp
        · exact absurd hl hno
        · exact ih (by omega) hp hl
      · have happ : (q ++ [x']).length ≤ 5 := by
          rw [List.length_append, List.length_singleton]
          omega
        rw [hx, Option.elim_some, if_neg Bool.false_ne_true, trim_of_le happ]
        rcases List.mem_cons.mp hp with rfl | hp
        · exact ih happ (List.mem_append_right q (List.mem_singleton_self x')) (hxl.mpr hl)
        · exact ih happ (List.mem_append_left _ hp) hl

theorem kept_length (q : List DsdvPacket) : (kept myaddr_ q).length ≤ 5 := by
  induction q with
  | nil => exact Nat.zero_le 5
  | cons p q ih =>
    rw [kept]
    rcases recvChecks_cases myaddr_ p with ⟨hp, -⟩ | ⟨p', hp, -⟩
    · rw [hp]
      exact ih
    · rw [hp]
      exact trim_length _

theorem ends_kept (q : List DsdvPacket) :
    Ends myaddr_ false (kept myaddr_ q) ↔ Ends myaddr_ false q := by
  induction q with
  | nil => exact Iff.rfl
  | cons p q ih =>
    rw [kept]
    rcases recvChecks_cases myaddr_ p with ⟨hp, -⟩ | ⟨p', hp, -⟩
    · rw [ends_dropped hp, hp]
      exact ih
    · rw [ends_queued hp, hp]
      exact Iff.rfl

/-- Where the packets come back, the loop ends exactly if none of those that are kept is lasting. -/
theorem ends_iff (q : List DsdvPacket) :
    Ends myaddr_ usable q ↔ usable = true ∨ ∀ p ∈ kept myaddr_ q, ¬ Lasting myaddr_ p := by
  cases usable with
  | true => exact iff_of_true (ends_usable q) (.inl rfl)
  | false =>
    rw [← ends_kept]
    constructor
    · rintro ⟨fuel, out, h⟩
      refine .inr fun p hp hl => ?_
      rw [drain_lasting (kept_length q) hp hl] at h
      cases h
    · intro h
      exact ends_of_mortal (h.resolve_left Bool.false_ne_true)

theorem drain_mono {fuel : ℕ} {q out : List DsdvPacket}
    (h : drain myaddr_ usable fuel q = some out) (k : ℕ) :
    drain myaddr_ usable (fuel + k) q = some out := by
  induction fuel generalizing q out with
  | zero => cases h
  | succ fuel ih =>
    rw [Nat.succ_add]
    cases q with
    | nil => exact h
    | cons p q =>
      rw [drain] at h ⊢
      cases hp : recvChecks myaddr_ p with
      | none =>
        rw [hp] at h
        exact ih h
      | some p' =>
        rw [hp, Option.elim_some] at h
        rw [Option.elim_some]
        cases usable with
        | true =>
          obtain ⟨out', h', rfl⟩ := Option.map_eq_some_iff.mp h
          rw [if_pos rfl, ih h', Option.map_some]
        | false =>
          rw [if_neg Bool.false_ne_true] at h ⊢
          exact ih h

/-! ### The loop over the routes -/

variable {n : DsdvNode} {src : Nsaddr} {now : ℚ}

/-- The route leaves an unusable entry in the table, and a packet that waits on it is kept for
ever. -/
def Blocks (n : DsdvNode) (src : Nsaddr) (now : ℚ) (r : DsdvRoute) : Prop :=
  r.dst ≠ n.myaddr_ ∧ ∃ e q, n.table_ r.dst = some e ∧ e.q = some q ∧
    (n.learn src now r).metric ≠ dsdvBig ∧ e.metric = dsdvBig ∧ ¬ e.Fresh (n.learn src now r) ∧
    ∃ p ∈ kept n.myaddr_ q, Lasting n.myaddr_ p

/-- No route of the update blocks, each in the state that it meets. -/
def Settles (src : Nsaddr) (now : ℚ) : DsdvNode → List DsdvRoute → Prop
  | _, [] => True
  | n, r :: rs => ¬ Blocks n src now r ∧
      ∀ fuel n', processRoute fuel n src now r = .ok n' → Settles src now n' rs

/-- What is compared: a route that is not stored leaves the entry as usable as it was. -/
theorem compare_spec (now : ℚ) (prte : Option DsdvEnt) (rte : DsdvEnt) :
    (compare now prte rte).1.q = rte.q ∧ (compare now prte rte).1.metric = rte.metric ∧
    (compare now prte rte).1.seqnum = rte.seqnum ∧ (compare now prte rte).1.hop = rte.hop ∧
    (((compare now prte rte).2.2 = true ∧ (compare now prte rte).2.1 = (compare now prte rte).1 ∧
        ∀ e, prte = some e → e.Fresh rte) ∨
      ((compare now prte rte).2.2 = false ∧ ∃ e, prte = some e ∧ ¬ e.Fresh rte ∧
        (compare now prte rte).2.1.metric = e.metric ∧
        (compare now prte rte).2.1.seqnum = e.seqnum ∧
        (compare now prte rte).2.1.hop = e.hop)) := by
  cases prte with
  | none =>
    rw [compare]
    dsimp only
    split_ifs <;> simp
  | some e =>
    rw [compare]
    dsimp only
    split_ifs with h1 h2 h3 h4
    · simp [DsdvEnt.Fresh, h1, h2]
    · simp [DsdvEnt.Fresh, h1, BitVec.not_lt.mp h2]
    · simp [DsdvEnt.Fresh, h3]
    · simp [DsdvEnt.Fresh, h1, BitVec.not_lt.mp h3]
    · simp [DsdvEnt.Fresh, h1, BitVec.not_lt.mp h3]

theorem learn_q (n : DsdvNode) (src : Nsaddr) (now : ℚ) (r : DsdvRoute) :
    (n.learn src now r).q = (n.table_ r.dst).elim none DsdvEnt.q := by
  rw [learn]
  cases n.table_ r.dst with
  | none => rfl
  | some e => rfl

theorem ok_ne (n : DsdvNode) : (.ok n : Except DsdvStop DsdvNode) ≠ .error .fuel :=
  fun h => by cases h

theorem assertion_ne : (.error .assertion : Except DsdvStop DsdvNode) ≠ .error .fuel :=
  fun h => by cases h

theorem retry_null {fuel : ℕ} {dst : Nsaddr} {rte ent : DsdvEnt}
    (h : rte.q = none ∨ rte.metric = dsdvBig) : retry fuel n dst rte ent = .ok n := by
  rw [retry]
  rcases h with hq | hm
  · rw [hq]
    rfl
  · cases rte.q with
    | none => rfl
    | some q => exact if_pos hm

theorem retry_some {fuel : ℕ} {dst : Nsaddr} {rte ent : DsdvEnt} {q : List DsdvPacket}
    (hq : rte.q = some q) (hm : rte.metric ≠ dsdvBig) : retry fuel n dst rte ent =
      (drain n.myaddr_ (ent.metric != dsdvBig) fuel q).elim (.error .fuel) fun _ =>
        if rte.metric > dsdvBig then .error .assertion
        else .ok (n.addEntry dst { rte with q := none }) := by
  rw [retry, hq, Option.elim_some, if_neg hm]

theorem retry_mono {fuel : ℕ} {dst : Nsaddr} {rte ent : DsdvEnt} {x : Except DsdvStop DsdvNode}
    (h : retry fuel n dst rte ent = x) (hx : x ≠ .error .fuel) (k : ℕ) :
    retry (fuel + k) n dst rte ent = x := by
  by_cases hnull : rte.q = none ∨ rte.metric = dsdvBig
  · rw [retry_null hnull] at h ⊢
    exact h
  · obtain ⟨hq, hm⟩ := not_or.mp hnull
    obtain ⟨q, hq⟩ := Option.ne_none_iff_exists'.mp hq
    rw [retry_some hq hm] at h ⊢
    cases hd : drain n.myaddr_ (ent.metric != dsdvBig) fuel q with
    | none =>
      rw [hd] at h
      exact absurd h.symm hx
    | some out =>
      rw [hd] at h
      rw [drain_mono hd k]
      exact h

theorem retry_iff (n : DsdvNode) (dst : Nsaddr) (rte ent : DsdvEnt) :
    (∃ fuel, retry fuel n dst rte ent ≠ .error .fuel) ↔ ∀ q, rte.q = some q →
      rte.metric ≠ dsdvBig → Ends n.myaddr_ (ent.metric != dsdvBig) q := by
  constructor
  · rintro ⟨fuel, h⟩ q hq hm
    rw [retry_some hq hm] at h
    cases hd : drain n.myaddr_ (ent.metric != dsdvBig) fuel q with
    | none => exact absurd (by rw [hd]; rfl) h
    | some out => exact ⟨fuel, out, hd⟩
  · intro hends
    by_cases hnull : rte.q = none ∨ rte.metric = dsdvBig
    · refine ⟨0, ?_⟩
      rw [retry_null hnull]
      exact ok_ne _
    · obtain ⟨hq, hm⟩ := not_or.mp hnull
      obtain ⟨q, hq⟩ := Option.ne_none_iff_exists'.mp hq
      obtain ⟨fuel, out, hd⟩ := hends q hq hm
      refine ⟨fuel, ?_⟩
      rw [retry_some hq hm, hd, Option.elim_some]
      split_ifs
      · exact assertion_ne
      · exact ok_ne _

/-- The body of the loop for the route of another node. -/
theorem processRoute_eq {fuel : ℕ} {r : DsdvRoute} (hd : r.dst ≠ n.myaddr_)
    {d : DsdvEnt × DsdvEnt × Bool}
    (hc : compare now (n.table_ r.dst) (n.learn src now r) = d) :
    processRoute fuel n src now r = if d.2.2 = true ∧ d.1.metric > dsdvBig then .error .assertion
      else retry fuel (n.addEntry r.dst d.2.1) r.dst d.1 d.2.1 := by
  rw [processRoute, if_neg hd]
  dsimp only
  rw [hc]

theorem processRoute_own {fuel : ℕ} {r : DsdvRoute} (hd : r.dst = n.myaddr_) :
    processRoute fuel n src now r = .ok n := by
  rw [processRoute, if_pos hd]

theorem processRoute_mono {fuel : ℕ} {r : DsdvRoute} {x : Except DsdvStop DsdvNode}
    (h : processRoute fuel n src now r = x) (hx : x ≠ .error .fuel) (k : ℕ) :
    processRoute (fuel + k) n src now r = x := by
  by_cases hd : r.dst = n.myaddr_
  · rw [processRoute_own hd] at h ⊢
    exact h
  · rw [processRoute_eq hd rfl] at h ⊢
    split_ifs at h ⊢
    · exact h
    · exact retry_mono h hx k

/-- Enough fuel is found exactly for a route that does not block. -/
theorem processRoute_iff (n : DsdvNode) (src : Nsaddr) (now : ℚ) (r : DsdvRoute) :
    (∃ fuel, processRoute fuel n src now r ≠ .error .fuel) ↔ ¬ Blocks n src now r := by
  by_cases hd : r.dst = n.myaddr_
  · refine iff_of_true ⟨0, ?_⟩ fun h => h.1 hd
    rw [processRoute_own hd]
    exact ok_ne _
  obtain ⟨hq, hm, -, -, hstored⟩ := compare_spec now (n.table_ r.dst) (n.learn src now r)
  obtain ⟨d, hc⟩ : ∃ d, compare now (n.table_ r.dst) (n.learn src now r) = d := ⟨_, rfl⟩
  rw [hc] at hq hm hstored
  simp only [processRoute_eq hd hc]
  rw [learn_q] at hq
  by_cases hbig : d.2.2 = true ∧ d.1.metric > dsdvBig
  · -- the assertion of `AddEntry` fails
    refine iff_of_true ⟨0, by rw [if_pos hbig]; exact assertion_ne⟩ ?_
    rintro ⟨-, e, q, he, -, -, -, hfresh, -⟩
    rcases hstored with ⟨-, -, hall⟩ | ⟨hno, -⟩
    · exact hfresh (hall e he)
    · rw [hno] at hbig
      exact absurd hbig.1 Bool.false_ne_true
  · simp only [if_neg hbig]
    rw [retry_iff]
    constructor
    · rintro hends ⟨-, e, q, he, heq, hmetric, hunusable, hfresh, p, hp, hl⟩
      rw [he, Option.elim_some, heq] at hq
      have h := hends q hq (hm ▸ hmetric)
      rcases hstored with ⟨-, -, hall⟩ | ⟨-, e', he', -, hsame, -⟩
      · exact hfresh (hall e he)
      · obtain rfl := Option.some.inj (he.symm.trans he')
        rcases (ends_iff q).mp h with husable | hmortal
        · rw [hsame, hunusable] at husable
          cases husable
        · exact hmortal p hp hl
    · intro hno q hdq hmetric
      apply (ends_iff q).mpr
      by_contra hlasts
      obtain ⟨hunusable, hlasts⟩ := not_or.mp hlasts
      simp only [not_forall, not_not] at hlasts
      obtain ⟨p, hp, hl⟩ := hlasts
      have hbig' : d.2.1.metric = dsdvBig := by simpa using hunusable
      rcases hstored with ⟨-, hent, -⟩ | ⟨-, e, he, hfresh, hsame, -⟩
      · exact hmetric (hent ▸ hbig')
      · rw [he, Option.elim_some, hdq] at hq
        exact hno ⟨hd, e, q, he, hq.symm, hm ▸ hmetric, hsame ▸ hbig', hfresh, p, hp, hl⟩

theorem processRoutes_mono {fuel : ℕ} {rs : List DsdvRoute} {x : Except DsdvStop DsdvNode}
    (h : processRoutes fuel n src now rs = x) (hx : x ≠ .error .fuel) (k : ℕ) :
    processRoutes (fuel + k) n src now rs = x := by
  induction rs generalizing n with
  | nil => exact h
  | cons r rs ih =>
    rw [processRoutes] at h ⊢
    cases hr : processRoute fuel n src now r with
    | error e =>
      rw [hr] at h
      have he : e ≠ .fuel := fun he => hx (by rw [← h, he]; rfl)
      rw [processRoute_mono hr (fun hc => he (Except.error.inj hc)) k]
      exact h
    | ok n' =>
      rw [hr] at h
      rw [processRoute_mono hr (ok_ne _) k]
      exact ih h

theorem processRoutes_iff (rs : List DsdvRoute) :
    (∃ fuel, processRoutes fuel n src now rs ≠ .error .fuel) ↔ Settles src now n rs := by
  induction rs generalizing n with
  | nil => exact iff_of_true ⟨0, (ok_ne _)⟩ trivial
  | cons r rs ih =>
    rw [Settles, ← processRoute_iff]
    constructor
    · rintro ⟨fuel, h⟩
      rw [processRoutes] at h
      refine ⟨⟨fuel, fun hr => h (by rw [hr]; rfl)⟩, fun fuel' n' hr' => ih.mp ⟨fuel, ?_⟩⟩
      cases hr : processRoute fuel n src now r with
      | error e =>
        rw [hr] at h
        have he : Except.error e ≠ (Except.error DsdvStop.fuel : Except DsdvStop DsdvNode) := h
        have h1 := processRoute_mono hr he fuel'
        have h2 := processRoute_mono hr' (ok_ne _) fuel
        rw [Nat.add_comm, h1] at h2
        cases h2
      | ok m =>
        rw [hr] at h
        have h1 := processRoute_mono hr (ok_ne _) fuel'
        have h2 := processRoute_mono hr' (ok_ne _) fuel
        rw [Nat.add_comm, h1] at h2
        obtain rfl := Except.ok.inj h2
        exact h
    · rintro ⟨⟨fuel, h⟩, hrest⟩
      cases hr : processRoute fuel n src now r with
      | error e =>
        refine ⟨fuel, ?_⟩
        rw [processRoutes, hr]
        rw [hr] at h
        exact h
      | ok n' =>
        obtain ⟨fuel', h'⟩ := ih.mpr (hrest fuel n' hr)
        refine ⟨fuel + fuel', ?_⟩
        rw [processRoutes, processRoute_mono hr (ok_ne _) fuel']
        rw [Nat.add_comm]
        show processRoutes (fuel' + fuel) n' src now rs ≠ _
        rw [processRoutes_mono rfl h' fuel]
        exact h'

/-- An update is processed to its end exactly if no route that it holds leaves packets waiting for
ever on an entry that they are given up from. -/
theorem processUpdate_ends_iff (n : DsdvNode) (src : Nsaddr) (now : ℚ) (p : DsdvUpdate) :
    (∃ fuel, processUpdate fuel n src now p ≠ .error .fuel) ↔ Settles src now n p.routes := by
  rw [← processRoutes_iff]
  apply exists_congr
  intro fuel
  rw [processUpdate]
  cases processRoutes fuel n src now p.routes with
  | error e => exact Iff.rfl
  | ok n' => exact iff_of_true (ok_ne _) (ok_ne _)

/-! ### A packet of the node's own -/

/-- Node 1 lost its route to node 2, and has a packet of its own waiting for the next one. -/
def cutOff : DsdvNode where
  myaddr_ := ⟨1, by decide⟩
  seqno_ := 2
  alpha_ := 7 / 8
  wst0_ := 6
  use_mac_ := true
  table_ dst :=
    if dst.val = 2 then
      some
        { DsdvEnt.zero with
          hop := ⟨3, by decide⟩
          metric := dsdvBig
          seqnum := 101
          q := some [⟨⟨1, by decide⟩, 0, 32⟩] }
    else none

/-- Node 2 at one hop, with the number that it had before. -/
def oldNews : DsdvUpdate := ⟨10, fun i => [1, 0, 0, 0, 2, 1, 0, 0, 0, 100].getD i 0⟩

theorem own_packet_loops : ¬ ∀ (n : DsdvNode) (src : Nsaddr) (now : ℚ) (p : DsdvUpdate),
    ∃ fuel, processUpdate fuel n src now p ≠ .error .fuel := by
  intro hall
  obtain ⟨fuel, h⟩ := hall cutOff ⟨3, by decide⟩ 0 oldNews
  have hroutes : oldNews.routes = [⟨⟨2, by decide⟩, 1, 100⟩] := by decide
  have hsettles : Settles ⟨3, by decide⟩ 0 cutOff oldNews.routes := by
    refine (processRoutes_iff _).mp ⟨fuel, fun he => h ?_⟩
    rw [processUpdate, he]
    rfl
  rw [hroutes] at hsettles
  refine hsettles.1 ⟨by decide, _, _, rfl, rfl, by decide, by decide, by decide, ?_⟩
  exact ⟨⟨⟨1, by decide⟩, 0, 32⟩, by decide, by decide⟩

end Ns2.DsdvNode
