import Ns2.Lib.DList
import Ns2.Lib.Machine

/-! The pending transactions of a coordinator: packets kept for devices that ask for them, in a doubly
linked list from which expired ones are purged. -/

namespace Ns2

def maxNumTransactions : ℕ := 70

def tr_oper_del : ℕ := 1
def tr_oper_est : ℕ := 2

/-- A transaction without its links. The packet is a number. -/
structure TRANSACLINK where
  pendAddrMode : BitVec 8
  pendAddr : BitVec 16
  pkt : ℕ
  msduHandle : BitVec 8
  expTime : ℚ
  deriving DecidableEq

/-- The transactions in memory, by the numbers of their nodes, which are below `fresh`. The links are
`last` and `next` with the pointers `transacLink1` and `transacLink2`. -/
structure TransacLinks where
  node : ℕ → Option TRANSACLINK
  links : DList ℕ
  fresh : ℕ

namespace TransacLinks

def new : TransacLinks := ⟨fun _ => none, .empty, 0⟩

def valid (t : TransacLinks) (a : ℕ) : Bool := (t.node a).isSome

def expired (t : TransacLinks) (now : ℚ) (a : ℕ) : Bool := (t.node a).any fun x => now > x.expTime

/-- A node is taken out of the links and freed. -/
def delete (t : TransacLinks) (a : ℕ) : Option TransacLinks :=
  (t.links.unlink t.valid a).map fun d =>
    { t with links := d, node := Function.update t.node a none }

/-- `tmp->next->next`, or null if there is no next one; `none` if that one is freed. -/
def afterNext (t : TransacLinks) (a : ℕ) : Option (Option ℕ) :=
  match t.links.next a with
  | none => some none
  | some b => if t.valid b then some (t.links.next b) else none

/-- The loop of `purgeTransacLink` from `tmp` on. -/
def purgeLoop (now : ℚ) : ℕ → Option ℕ → TransacLinks → Option TransacLinks
  | _, none, t => some t
  | 0, some _, _ => none
  | fuel + 1, some a, t =>
    if t.valid a then
      if t.expired now a then
        (t.afterNext a).bind fun tmp => (t.delete a).bind (purgeLoop now fuel tmp)
      else purgeLoop now fuel (t.links.next a) t
    else none

/-- No walk goes over more nodes than were ever allocated. -/
def purgeTransacLink (t : TransacLinks) (now : ℚ) : Option TransacLinks :=
  purgeLoop now (t.fresh + 1) t.links.head t

def addTransacLink (t : TransacLinks) (x : TRANSACLINK) : Option TransacLinks :=
  let t := { t with node := Function.update t.node t.fresh (some x), fresh := t.fresh + 1 }
  (t.links.insert t.valid t.links.tail none (t.fresh - 1)).map fun d => { t with links := d }

/-- The first transaction, from `tmp` on, that is looked for. -/
def findLoop (t : TransacLinks) (p : TRANSACLINK → Bool) : ℕ → Option ℕ → Option (Option ℕ) :=
  DList.scan t.valid t.links.next fun a => (t.node a).any p

def isPktOrHandle (pkt : Option ℕ) (msduH : BitVec 8) (x : TRANSACLINK) : Bool :=
  match pkt with
  | some p => x.pkt == p
  | none => x.msduHandle == msduH

/-- The result is 1 if there is no such transaction. -/
def updateTransacLinkByPktOrHandle (t : TransacLinks) (now : ℚ) (oper : ℕ) (pkt : Option ℕ)
    (msduH : BitVec 8) : Option (TransacLinks × ℕ) :=
  (if oper = tr_oper_est then t.purgeTransacLink now else some t).bind fun t =>
    (t.findLoop (isPktOrHandle pkt msduH) (t.fresh + 1) t.links.head).bind fun
      | none => some (t, 1)
      | some a => if oper = tr_oper_del then (t.delete a).map fun t => (t, 0) else some (t, 0)

/-- The number of nodes from `tmp` on. -/
def countLoop (t : TransacLinks) : ℕ → Option ℕ → Option ℕ
  | _, none => some 0
  | 0, some _ => none
  | fuel + 1, some a => if t.valid a then (countLoop t fuel (t.links.next a)).map (· + 1) else none

def numberTransacLink (t : TransacLinks) (now : ℚ) : Option (TransacLinks × ℕ) :=
  (t.purgeTransacLink now).bind fun t =>
    (t.countLoop (t.fresh + 1) t.links.head).map fun num => (t, num)

/-- The result is 1 if the transaction is refused. -/
def chkAddTransacLink (t : TransacLinks) (now : ℚ) (pendAM : BitVec 8) (pendAddr : BitVec 16)
    (pkt : ℕ) (msduH : BitVec 8) (kpTime : ℚ) : Option (TransacLinks × ℕ) :=
  (t.purgeTransacLink now).bind fun t => (t.numberTransacLink now).bind fun r =>
    if r.2 ≥ maxNumTransactions then some (r.1, 1)
    else (r.1.addTransacLink ⟨pendAM, pendAddr, pkt, msduH, now + kpTime⟩).map fun t => (t, 0)

/-! ### The list in memory -/

/-- The links run through the nodes of a list, and none of them is freed. -/
structure Holds (t : TransacLinks) (l : List ℕ) : Prop where
  links : t.links.Rep l
  valid : ∀ a ∈ l, t.valid a = true
  fresh : ∀ a ∈ l, a < t.fresh

variable {t : TransacLinks} {l L R : List ℕ} {a : ℕ} {now : ℚ}

theorem holds_new : new.Holds [] :=
  ⟨.nil rfl rfl, fun _ h => absurd h List.not_mem_nil, fun _ h => absurd h List.not_mem_nil⟩

theorem Holds.delete (h : t.Holds (L ++ a :: R)) : ∃ u, t.delete a = some u ∧ u.Holds (L ++ R) ∧
    u.node = Function.update t.node a none ∧ u.fresh = t.fresh := by
  obtain ⟨d, hd, hrep⟩ := h.links.unlink h.valid
  have hmem : ∀ b ∈ L ++ R, b ∈ L ++ a :: R := fun b hb =>
    List.mem_append.mpr ((List.mem_append.mp hb).imp_right (List.mem_cons_of_mem a))
  refine ⟨{ t with links := d, node := Function.update t.node a none }, ?_, ⟨hrep, fun b hb => ?_,
    fun b hb => h.fresh b (hmem b hb)⟩, rfl, rfl⟩
  · rw [TransacLinks.delete, hd, Option.map_some]
  · have hne : b ≠ a := by
      rintro rfl
      exact (List.nodup_cons.mp (List.nodup_middle.mp h.links.nodup)).1 hb
    change (Function.update t.node a none b).isSome = true
    rw [Function.update_of_ne hne]
    exact h.valid b (hmem b hb)

/-- What the purge leaves of a list: the one behind a removed one is not looked at. -/
def purged (p : ℕ → Bool) : List ℕ → List ℕ
  | [] => []
  | [a] => if p a then [] else [a]
  | a :: b :: l => if p a then b :: purged p l else a :: purged p (b :: l)

variable {p : ℕ → Bool} {u : TransacLinks} {fuel : ℕ}

theorem purged_subset (p : ℕ → Bool) (l : List ℕ) : ∀ a ∈ purged p l, a ∈ l := by
  induction l using purged.induct p with
  | case1 => exact fun a ha => ha
  | case2 b hb => simp [purged, hb]
  | case3 b hb => simp [purged, hb]
  | case4 b c l hb ih =>
    intro a ha
    rw [purged, if_pos hb, List.mem_cons] at ha
    rcases ha with rfl | ha
    · simp
    · simp [ih a ha]
  | case5 b c l hb ih =>
    intro a ha
    rw [purged, if_neg hb, List.mem_cons] at ha
    rcases ha with rfl | ha
    · simp
    · exact List.mem_cons_of_mem b (ih a ha)

theorem purged_congr {q : ℕ → Bool} (h : ∀ a ∈ l, p a = q a) : purged p l = purged q l := by
  induction l using purged.induct p with
  | case1 => rfl
  | case2 a ha => simp [purged, ha, ← h a (by simp)]
  | case3 a ha => simp [purged, ha, ← h a (by simp)]
  | case4 a b l ha ih =>
    rw [purged, purged, ← h a (by simp), if_pos ha, if_pos ha, ih fun c hc => h c (by simp [hc])]
  | case5 a b l ha ih =>
    rw [purged, purged, ← h a (by simp), if_neg ha, if_neg ha,
      ih fun c hc => h c (List.mem_cons_of_mem a hc)]

/-- The list that another one became keeps its transactions. -/
structure Kept (t u : TransacLinks) (l : List ℕ) : Prop where
  holds : u.Holds l
  node : ∀ a ∈ l, u.node a = t.node a
  fresh : u.fresh = t.fresh

theorem Kept.trans {v : TransacLinks} {m : List ℕ} (h : t.Kept u l) (h' : u.Kept v m)
    (hm : ∀ a ∈ m, a ∈ l) : t.Kept v m :=
  ⟨h'.holds, fun a ha => (h'.node a ha).trans (h.node a (hm a ha)), h'.fresh.trans h.fresh⟩

theorem Holds.kept_delete (h : t.Holds (L ++ a :: R)) :
    ∃ u, t.delete a = some u ∧ t.Kept u (L ++ R) := by
  obtain ⟨u, hu, hholds, hnode, hfresh⟩ := h.delete
  refine ⟨u, hu, hholds, fun b hb => ?_, hfresh⟩
  have hne : b ≠ a := by
    rintro rfl
    exact (List.nodup_cons.mp (List.nodup_middle.mp h.links.nodup)).1 hb
  rw [hnode, Function.update_of_ne hne]

theorem Kept.expired (h : t.Kept u l) (ha : a ∈ l) : u.expired now a = t.expired now a := by
  rw [TransacLinks.expired, TransacLinks.expired, h.node a ha]

theorem purgeLoop_expired {q : Option ℕ} (hv : t.valid a = true) (he : t.expired now a = true)
    (hq : t.afterNext a = some q) (hu : t.delete a = some u) :
    purgeLoop now (fuel + 1) (some a) t = purgeLoop now fuel q u := by
  rw [TransacLinks.purgeLoop, if_pos hv, if_pos he, hq, Option.bind_some, hu, Option.bind_some]

theorem purgeLoop_kept (hv : t.valid a = true) (he : ¬ t.expired now a = true) :
    purgeLoop now (fuel + 1) (some a) t = purgeLoop now fuel (t.links.next a) t := by
  rw [TransacLinks.purgeLoop, if_pos hv, if_neg he]

theorem Holds.purgeLoop (h : t.Holds (L ++ R)) (hp : ∀ a ∈ R, t.expired now a = p a)
    (hfuel : R.length ≤ fuel) :
    ∃ u, purgeLoop now fuel R.head? t = some u ∧ t.Kept u (L ++ purged p R) := by
  induction R using purged.induct p generalizing t L fuel with
  | case1 =>
    refine ⟨t, ?_, h, fun _ _ => rfl, rfl⟩
    cases fuel <;> rfl
  | case2 a ha =>
    obtain ⟨fuel, rfl⟩ : ∃ f, fuel = f + 1 := ⟨fuel - 1, by simp at hfuel; omega⟩
    obtain ⟨u, hu, hkept⟩ := h.kept_delete
    have hnext : t.links.next a = none := h.links.next
    have hq : t.afterNext a = some none := by rw [afterNext, hnext]
    rw [List.head?_cons, purgeLoop_expired (h.valid a (by simp)) ((hp a (by simp)).trans ha) hq hu,
      purged, if_pos ha]
    refine ⟨u, ?_, hkept⟩
    cases fuel <;> rfl
  | case3 a ha =>
    obtain ⟨fuel, rfl⟩ : ∃ f, fuel = f + 1 := ⟨fuel - 1, by simp at hfuel; omega⟩
    have hnext : t.links.next a = none := h.links.next
    rw [List.head?_cons, purgeLoop_kept (h.valid a (by simp)) (by rw [hp a (by simp)]; exact ha), hnext,
      purged, if_neg ha]
    refine ⟨t, ?_, h, fun _ _ => rfl, rfl⟩
    cases fuel <;> rfl
  | case4 a b l ha ih =>
    obtain ⟨fuel, rfl⟩ : ∃ f, fuel = f + 1 := ⟨fuel - 1, by simp at hfuel; omega⟩
    obtain ⟨u, hu, hkept⟩ := h.kept_delete
    have hnext : t.links.next a = some b := h.links.next
    have hafter : t.links.next b = l.head? := by
      have h' : t.links.Rep ((L ++ [a]) ++ b :: l) := by simpa using h.links
      exact h'.next
    have hq : t.afterNext a = some l.head? := by
      rw [afterNext, hnext]
      dsimp only
      rw [if_pos (h.valid b (by simp)), hafter]
    have hholds : u.Holds ((L ++ [b]) ++ l) := by simpa using hkept.holds
    have hfuel' : l.length ≤ fuel := by simp at hfuel; omega
    obtain ⟨v, hv, hkept'⟩ := ih hholds
      (fun c hc => (hkept.expired (by simp [hc])).trans (hp c (by simp [hc]))) hfuel'
    rw [List.head?_cons, purgeLoop_expired (h.valid a (by simp)) ((hp a (by simp)).trans ha) hq hu,
      purged, if_pos ha]
    refine ⟨v, hv, ?_⟩
    rw [List.append_assoc] at hkept'
    refine hkept.trans hkept' fun c hc => ?_
    have := purged_subset p l c
    simp only [List.mem_append, List.mem_cons] at hc ⊢
    tauto
  | case5 a b l ha ih =>
    obtain ⟨fuel, rfl⟩ : ∃ f, fuel = f + 1 := ⟨fuel - 1, by simp at hfuel; omega⟩
    have hnext : t.links.next a = (b :: l).head? := h.links.next
    have hholds : t.Holds ((L ++ [a]) ++ b :: l) := by simpa using h
    have hfuel' : (b :: l).length ≤ fuel := by simpa using hfuel
    obtain ⟨v, hv, hkept⟩ := ih hholds (fun c hc => hp c (List.mem_cons_of_mem a hc)) hfuel'
    rw [List.head?_cons, purgeLoop_kept (h.valid a (by simp)) (by rw [hp a (by simp)]; exact ha), hnext,
      purged, if_neg ha]
    rw [List.append_assoc] at hkept
    exact ⟨v, hv, hkept⟩

/-- What the purge does to every list. -/
theorem Holds.purge (h : t.Holds l) (now : ℚ) :
    ∃ u, t.purgeTransacLink now = some u ∧ t.Kept u (purged (t.expired now) l) := by
  have hlen := h.links.length_le h.fresh
  rw [purgeTransacLink, h.links.head]
  exact Holds.purgeLoop (L := []) h (fun _ _ => rfl) (Nat.le_succ_of_le hlen)

/-- The purge is exact if and only if no two transactions in a row have expired. -/
theorem purged_eq_filter_iff (p : ℕ → Bool) (l : List ℕ) :
    purged p l = l.filter (fun a => !p a) ↔ l.IsChain fun a b => ¬ (p a = true ∧ p b = true) := by
  induction l using purged.induct p with
  | case1 => simp [purged]
  | case2 a ha => simp [purged, ha]
  | case3 a ha => simp [purged, ha]
  | case4 a b l ha ih =>
    rw [purged, if_pos ha, List.isChain_cons_cons, List.filter_cons_of_neg (by simp [ha])]
    cases hb : p b with
    | true =>
      refine iff_of_false (fun he => ?_) fun hc => hc.1 ⟨ha, rfl⟩
      have hmem : b ∈ (b :: l).filter fun c => !p c := he ▸ List.mem_cons_self
      have := (List.mem_filter.mp hmem).2
      rw [hb] at this
      exact absurd this (by decide)
    | false =>
      rw [List.filter_cons_of_pos (by simp [hb]), List.cons_inj_right, ih]
      constructor
      · refine fun hc => ⟨fun hab => Bool.false_ne_true hab.2, ?_⟩
        cases l with
        | nil => exact List.isChain_singleton b
        | cons c l =>
          exact List.isChain_cons_cons.mpr ⟨fun hbc => Bool.false_ne_true (hb.symm.trans hbc.1), hc⟩
      · exact fun hc => hc.2.tail
  | case5 a b l ha ih =>
    rw [purged, if_neg ha, List.isChain_cons_cons, List.filter_cons_of_pos (by simp [ha]),
      List.cons_inj_right, ih]
    exact ⟨fun hc => ⟨fun hab => ha hab.1, hc⟩, fun hc => hc.2⟩

theorem Holds.countLoop (h : t.Holds (L ++ R)) (hfuel : R.length ≤ fuel) :
    t.countLoop fuel R.head? = some R.length := by
  induction R generalizing L fuel with
  | nil => cases fuel <;> rfl
  | cons a R ih =>
    obtain ⟨fuel, rfl⟩ : ∃ f, fuel = f + 1 := ⟨fuel - 1, by simp at hfuel; omega⟩
    have hnext : t.links.next a = R.head? := h.links.next
    have hholds : t.Holds ((L ++ [a]) ++ R) := by simpa using h
    rw [List.head?_cons, TransacLinks.countLoop, if_pos (h.valid a (by simp)), hnext,
      ih hholds (Nat.le_of_succ_le_succ hfuel), Option.map_some, List.length_cons]

theorem Holds.number (h : t.Holds l) (now : ℚ) :
    ∃ u, t.numberTransacLink now = some (u, (purged (t.expired now) l).length) ∧
      t.Kept u (purged (t.expired now) l) := by
  obtain ⟨u, hu, hkept⟩ := h.purge now
  have hlen := hkept.holds.links.length_le hkept.holds.fresh
  refine ⟨u, ?_, hkept⟩
  rw [numberTransacLink, hu, Option.bind_some, hkept.holds.links.head,
    Holds.countLoop (L := []) hkept.holds (Nat.le_succ_of_le hlen), Option.map_some]

theorem Holds.add (h : t.Holds l) (x : TRANSACLINK) :
    ∃ u, t.addTransacLink x = some u ∧ u.Holds (l ++ [t.fresh]) ∧
      u.node = Function.update t.node t.fresh (some x) ∧ u.fresh = t.fresh + 1 := by
  have hnew : t.fresh ∉ l := fun hmem => (h.fresh _ hmem).false
  have hvalid : ∀ a ∈ l, (Function.update t.node t.fresh (some x) a).isSome = true := fun a ha => by
    have hne : a ≠ t.fresh := fun he => hnew (he ▸ ha)
    rw [Function.update_of_ne hne]
    exact h.valid a ha
  let valid : ℕ → Bool := fun a => (Function.update t.node t.fresh (some x) a).isSome
  have hself : valid t.fresh = true := by simp [valid]
  obtain ⟨d, hd, hrep⟩ := DList.Rep.insert (L := l) (R := []) (by simpa using h.links)
    (by simpa using hnew) (by simpa using hvalid) hself
  refine ⟨{ t with
    node := Function.update t.node t.fresh (some x)
    links := d
    fresh := t.fresh + 1 }, ?_, ⟨hrep, fun a ha => ?_, fun a ha => ?_⟩, rfl, rfl⟩
  · rw [← h.links.tail, List.head?_nil] at hd
    change Option.map _ (DList.insert _ t.links t.links.tail none (t.fresh + 1 - 1)) = _
    rw [Nat.add_sub_cancel]
    change Option.map _ (DList.insert (fun a => (Function.update t.node t.fresh (some x) a).isSome)
      t.links t.links.tail none t.fresh) = _
    rw [hd, Option.map_some]
  · rcases List.mem_append.mp ha with ha | ha
    · exact hvalid a ha
    · obtain rfl := List.mem_singleton.mp ha
      change (Function.update t.node t.fresh (some x) t.fresh).isSome = true
      rw [Function.update_self, Option.isSome_some]
  · change a < t.fresh + 1
    rcases List.mem_append.mp ha with ha | ha
    · exact (h.fresh a ha).trans (Nat.lt_succ_self _)
    · rw [List.mem_singleton.mp ha]
      exact Nat.lt_succ_self _

/-- A new transaction is refused if two purges leave too many. -/
theorem Holds.chkAdd (h : t.Holds l) (now : ℚ) (am : BitVec 8) (addr : BitVec 16) (pkt : ℕ)
    (msdu : BitVec 8) (kpTime : ℚ) :
    ∃ r, t.chkAddTransacLink now am addr pkt msdu kpTime = some r ∧ (∃ m, r.1.Holds m) ∧
      (r.2 = 1 ↔
        maxNumTransactions ≤ (purged (t.expired now) (purged (t.expired now) l)).length) := by
  obtain ⟨u, hu, hkept⟩ := h.purge now
  obtain ⟨v, hv, hkept'⟩ := hkept.holds.number now
  have hsame : purged (u.expired now) (purged (t.expired now) l) =
      purged (t.expired now) (purged (t.expired now) l) :=
    purged_congr fun a ha => hkept.expired ha
  rw [hsame] at hv hkept'
  rw [chkAddTransacLink, hu, Option.bind_some, hv, Option.bind_some]
  dsimp only
  by_cases hmax : (purged (t.expired now) (purged (t.expired now) l)).length ≥ maxNumTransactions
  · rw [if_pos hmax]
    exact ⟨_, rfl, ⟨_, hkept'.holds⟩, iff_of_true rfl hmax⟩
  · rw [if_neg hmax]
    obtain ⟨w, hw, hholds, -⟩ := hkept'.holds.add ⟨am, addr, pkt, msdu, now + kpTime⟩
    exact ⟨(w, 0), by rw [hw]; rfl, ⟨_, hholds⟩, iff_of_false Nat.zero_ne_one hmax⟩

/-- What the purge is for. -/
structure Purges (t : TransacLinks) (l : List ℕ) (now : ℚ) : Prop where
  purge : ∃ u, t.purgeTransacLink now = some u ∧ t.Kept u (l.filter fun a => !t.expired now a)
  refuse : ∀ am addr pkt msdu kpTime, ∃ r, t.chkAddTransacLink now am addr pkt msdu kpTime = some r ∧
    (r.2 = 1 → maxNumTransactions ≤ (l.filter fun a => !t.expired now a).length)

/-- Exactly the expired transactions are removed if and only if no two in a row have expired. -/
theorem purges_iff (h : t.Holds l) (now : ℚ) :
    t.Purges l now ↔
      l.IsChain fun a b => ¬ (t.expired now a = true ∧ t.expired now b = true) := by
  rw [← purged_eq_filter_iff]
  constructor
  · intro hp
    obtain ⟨u, hu, hkept⟩ := hp.purge
    obtain ⟨v, hv, hkept'⟩ := h.purge now
    obtain rfl := Option.some.inj (hu.symm.trans hv)
    exact hkept'.holds.links.fwd.unique hkept.holds.links.fwd
  · intro he
    refine ⟨?_, fun am addr pkt msdu kpTime => ?_⟩
    · rw [← he]
      exact h.purge now
    · obtain ⟨r, hr, -, hiff⟩ := h.chkAdd now am addr pkt msdu kpTime
      refine ⟨r, hr, fun h1 => (hiff.mp h1).trans_eq ?_⟩
      rw [he, (purged_eq_filter_iff _ _).mpr, List.filter_filter]
      · simp
      · refine List.Pairwise.isChain (List.pairwise_of_forall_mem_list fun a ha b _ hab => ?_)
        have := (List.mem_filter.mp ha).2
        rw [hab.1] at this
        exact absurd this (by decide)

/-- Three transactions in the list, of which the last one has not expired at time 10. -/
theorem three_links : ∃ t : TransacLinks, t.Holds [0, 1, 2] ∧ t.expired 10 0 = true ∧
    t.expired 10 1 = true ∧ t.expired 10 2 = false := by
  obtain ⟨t, -, ht, hnode, hfresh⟩ := holds_new.add ⟨1, 0, 0, 0, 0⟩
  obtain ⟨u, -, hu, hnode', hfresh'⟩ := ht.add ⟨1, 1, 1, 1, 1⟩
  obtain ⟨v, -, hv, hnode'', -⟩ := hu.add ⟨1, 2, 2, 2, 20⟩
  rw [hfresh] at hu hv hnode' hfresh'
  rw [hfresh'] at hv hnode''
  refine ⟨v, hv, ?_, ?_, ?_⟩ <;> rw [expired, hnode'', hnode', hnode] <;> decide

theorem purges_iff_three : ∃ t : TransacLinks, t.Holds [0, 1, 2] ∧ (t.Purges [0, 1, 2] 10 ↔
    [0, 1, 2].IsChain fun a b => ¬ (t.expired 10 a = true ∧ t.expired 10 b = true)) := by
  obtain ⟨t, ht, -⟩ := three_links
  exact ⟨t, ht, purges_iff ht 10⟩

/-- The second of two expired transactions stays. -/
theorem purge_keeps_second : ∃ t u : TransacLinks, t.Holds [0, 1, 2] ∧
    t.purgeTransacLink 10 = some u ∧ u.Holds [1, 2] ∧ t.expired 10 1 = true ∧
    ¬ t.Purges [0, 1, 2] 10 := by
  obtain ⟨t, ht, h0, h1, h2⟩ := three_links
  obtain ⟨u, hu, hkept⟩ := ht.purge 10
  have hl : purged (t.expired 10) [0, 1, 2] = [1, 2] := by
    rw [purged, if_pos h0, purged, if_neg (by rw [h2]; decide)]
  rw [hl] at hkept
  refine ⟨t, u, ht, hu, hkept.holds, h1, fun hp => ?_⟩
  obtain ⟨v, hv, hkept'⟩ := hp.purge
  obtain rfl := Option.some.inj (hu.symm.trans hv)
  have he := hkept.holds.links.fwd.unique hkept'.holds.links.fwd
  simp [h0, h1, h2] at he

/-! ### Whole runs -/

/-- What happens to the list, each with the current time. -/
inductive TransacEvent
  | purge (now : ℚ)
  | chkAdd (now : ℚ) (pendAM : BitVec 8) (pendAddr : BitVec 16) (pkt : ℕ) (msduH : BitVec 8)
      (kpTime : ℚ)
  | update (now : ℚ) (oper : ℕ) (pkt : Option ℕ) (msduH : BitVec 8)

/-- The output is the result of the call. -/
def step (t : TransacLinks) : TransacEvent → Option (TransacLinks × ℕ)
  | .purge now => (t.purgeTransacLink now).map fun t => (t, 0)
  | .chkAdd now am addr pkt msdu kpTime => t.chkAddTransacLink now am addr pkt msdu kpTime
  | .update now oper pkt msdu => t.updateTransacLinkByPktOrHandle now oper pkt msdu

theorem Holds.find (h : t.Holds l) (q : TRANSACLINK → Bool) :
    ∃ M R, l = M ++ R ∧ t.findLoop q (t.fresh + 1) t.links.head = some R.head? := by
  let stop : ℕ → Bool := fun a => (t.node a).any q
  have hl : l.takeWhile (fun a => !stop a) ++ l.dropWhile (fun a => !stop a) = l :=
    List.takeWhile_append_dropWhile
  have hlen := h.links.length_le h.fresh
  refine ⟨_, _, hl.symm, ?_⟩
  rw [findLoop, h.links.head]
  nth_rewrite 1 [← hl]
  refine @DList.Fwd.scan _ _ _ stop [] _ _ _ (by rw [List.nil_append, hl]; exact h.links.fwd)
    (by rw [hl]; exact h.valid) (fun a ha => ?_) (fun a ha => ?_) ?_
  · simpa using List.mem_takeWhile_imp ha
  · have := List.head?_dropWhile_not (fun a => !stop a) l
    rw [ha] at this
    simpa using this
  · have := (List.takeWhile_sublist (fun a => !stop a) (l := l)).length_le
    omega

theorem Holds.update (h : t.Holds l) (now : ℚ) (oper : ℕ) (pkt : Option ℕ) (msdu : BitVec 8) :
    ∃ r, t.updateTransacLinkByPktOrHandle now oper pkt msdu = some r ∧ ∃ m, r.1.Holds m := by
  obtain ⟨u, hu, l', hl'⟩ : ∃ u, (if oper = tr_oper_est then t.purgeTransacLink now else some t) =
      some u ∧ ∃ l', u.Holds l' := by
    split_ifs
    · obtain ⟨u, hu, hkept⟩ := h.purge now
      exact ⟨u, hu, _, hkept.holds⟩
    · exact ⟨t, rfl, l, h⟩
  obtain ⟨M, R, rfl, hfind⟩ := hl'.find (isPktOrHandle pkt msdu)
  rw [updateTransacLinkByPktOrHandle, hu, Option.bind_some, hfind, Option.bind_some]
  cases R with
  | nil => exact ⟨(u, 1), rfl, _, hl'⟩
  | cons a R =>
    dsimp only [List.head?_cons]
    split_ifs
    · obtain ⟨v, hv, hkept⟩ := hl'.kept_delete
      exact ⟨(v, 0), by rw [hv]; rfl, _, hkept.holds⟩
    · exact ⟨(u, 0), rfl, _, hl'⟩

theorem Holds.step (h : t.Holds l) (e : TransacEvent) :
    ∃ u o, t.step e = some (u, o) ∧ ∃ m, u.Holds m := by
  cases e with
  | purge now =>
    obtain ⟨u, hu, hkept⟩ := h.purge now
    exact ⟨u, 0, by rw [TransacLinks.step, hu]; rfl, _, hkept.holds⟩
  | chkAdd now am addr pkt msdu kpTime =>
    obtain ⟨r, hr, hm, -⟩ := h.chkAdd now am addr pkt msdu kpTime
    exact ⟨r.1, r.2, hr, hm⟩
  | update now oper pkt msdu =>
    obtain ⟨r, hr, hm⟩ := h.update now oper pkt msdu
    exact ⟨r.1, r.2, hr, hm⟩

/-- In every run the links are those of a list, so no freed node is ever followed. -/
theorem run_holds (es : List TransacEvent) :
    ∃ t os, Machine.run step new es = some (t, os) ∧ ∃ l, t.Holds l :=
  Machine.run_total (I := fun t : TransacLinks => ∃ l, t.Holds l)
    (fun _ e ⟨_, h⟩ _ => h.step e) ⟨[], holds_new⟩ (Machine.admits_true step new es)

end TransacLinks

end Ns2
