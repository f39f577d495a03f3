import Ns2.Aodv.AodvAgent

/-! What one event can do to the routes of an AODV node, and what the node can send. -/

namespace Ns2

namespace AodvAgent

/-- What the other nodes depend on in an entry. -/
structure Core where
  seqno : ℕ
  hops : ℕ
  flags : RtFlags
  nexthop : ℤ
  deriving DecidableEq

def RtEntry.core (rt : RtEntry) : Core := ⟨rt.rt_seqno, rt.rt_hops, rt.rt_flags, rt.rt_nexthop⟩

/-- What a message says: its sender, a destination, a sequence number and a hop count. -/
def Msg.announces : Msg → Option (ℤ × ℤ × ℕ × ℕ)
  | .request saddr _ rq => some (saddr, rq.rq_src, rq.rq_src_seqno, rq.rq_hop_count)
  | .reply _ _ _ rp => some (rp.rp_src, rp.rp_dst, rp.rp_dst_seqno, rp.rp_hop_count)
  | .error _ _ => none
  | .hello _ => none

/-- Why a node changes a route. A route that is heard may be passed on. -/
inductive Cause
  | quiet
  | heard (j d : ℤ) (k h : ℕ) (passes : Prop)
  | lost (j : ℤ) (l : List (ℤ × ℕ))
  | failed (id : ℤ)
  | expired (d : ℤ)
  | repair (d : ℤ)
  | timer (d : ℤ)

/-- No message is behind it. -/
def Cause.Local : Cause → Prop
  | .heard _ _ _ _ _ => False
  | .lost _ _ => False
  | _ => True

/-- A route is newer than another one, or as new and shorter. -/
def Core.Better (c : Core) (k h : ℕ) : Prop := c.seqno < k ∨ c.seqno = k ∧ h < c.hops

instance (c : Core) (k h : ℕ) : Decidable (c.Better k h) := inferInstanceAs (Decidable (_ ∨ _))

/-- How a route changes. -/
inductive Move : Cause → ℤ → Core → Core → Prop
  | learn {j d : ℤ} {k h : ℕ} {passes : Prop} {c : Core} (hb : c.Better k h) :
    Move (.heard j d k h passes) d c ⟨k, h, .RTF_UP, j⟩
  | lose {j d : ℤ} {l : List (ℤ × ℕ)} {c : Core} {k : ℕ} (hl : (d, k) ∈ l) (hup : c.flags = .RTF_UP)
    (hn : c.nexthop = j) (heven : c.seqno % 2 = 0) (hk : c.seqno ≤ k) :
    Move (.lost j l) d c ⟨k, infinity, .RTF_DOWN, 0⟩
  | fail {id d : ℤ} {c : Core} (hup : c.flags = .RTF_UP) (hn : c.nexthop = id)
    (heven : c.seqno % 2 = 0) : Move (.failed id) d c ⟨plus c.seqno 1, infinity, .RTF_DOWN, 0⟩
  | expire {d : ℤ} {c : Core} (hup : c.flags = .RTF_UP) (hodd : plus c.seqno 1 % 2 ≠ 0) :
    Move (.expired d) d c ⟨plus c.seqno 1, infinity, .RTF_DOWN, 0⟩
  | repair {d : ℤ} {c : Core} : Move (.repair d) d c { c with flags := .RTF_IN_REPAIR }
  | down {d : ℤ} {c : Core} (hrep : c.flags = .RTF_IN_REPAIR) :
    Move (.timer d) d c ⟨c.seqno, infinity, .RTF_DOWN, 0⟩

/-- What a node says: about itself its own number, and about others a route that it has, or one that
it heard and that is not better than its own. -/
structure Sent (c : Cause) (t : AodvAgent) (m : Msg) : Prop where
  announces : ∀ j d k h, m.announces = some (j, d, k, h) → j = t.index ∧
    (d = t.index ∧ k = t.seqno ∧ h = 1 ∨
      d ≠ t.index ∧ d ∈ t.rthead ∧ (t.rt d).rt_hops ≠ infinity ∧ k = (t.rt d).rt_seqno ∧
        h = ((t.rt d).rt_hops + 1) % 2 ^ 8 ∨
      ∃ i h' passes, c = .heard i d k h' passes ∧ passes ∧ ¬ (t.rt d).core.Better k h' ∧
        h = addHop h')
  lost : ∀ j l, m = .error j l → ∀ x ∈ l, (t.rt x.1).rt_flags = .RTF_DOWN ∧
    x.2 = (t.rt x.1).rt_seqno

/-- An entry that is missing is like a new one. -/
def Ok (s : AodvAgent) : Prop := ∀ d, d ∉ s.rthead → (s.rt d).core = RtEntry.new.core

/-- A number as a node gives it to itself. -/
def Own (k : ℕ) : Prop := k % 2 = 0 ∧ k < 2 ^ 32

/-- Every route changes as the cause says, or not at all. -/
structure Changed (c : Cause) (s t : AodvAgent) : Prop where
  index : t.index = s.index
  seqno : Own s.seqno → Own t.seqno
  ok : t.Ok
  head : broadcast ∉ s.rthead → (∀ j d k h p, c = .heard j d k h p → d ≠ broadcast) →
    broadcast ∉ t.rthead
  moves : ∀ d, (t.rt d).core = (s.rt d).core ∨ Move c d (s.rt d).core (t.rt d).core

/-- What a handler leaves and sends. -/
structure Handled (c : Cause) (s : AodvAgent) (r : AodvAgent × List Msg) : Prop where
  changed : Changed c s r.1
  sent : ∀ m ∈ r.2, Sent c r.1 m

/-- Nothing that others depend on changes. -/
structure Quiet (s t : AodvAgent) : Prop where
  index : t.index = s.index
  seqno : t.seqno = s.seqno
  head : t.rthead = s.rthead
  core : ∀ d, (t.rt d).core = (s.rt d).core

variable {s t u : AodvAgent} {now perHop : ℚ} {d : ℤ} {c : Cause} {rt : RtEntry}

namespace Quiet

theorem refl (s : AodvAgent) : Quiet s s := ⟨rfl, rfl, rfl, fun _ => rfl⟩

theorem trans (h1 : Quiet s t) (h2 : Quiet t u) : Quiet s u :=
  ⟨h2.index.trans h1.index, h2.seqno.trans h1.seqno, h2.head.trans h1.head,
    fun d => (h2.core d).trans (h1.core d)⟩

theorem ok (h : Quiet s t) (hs : s.Ok) : t.Ok := fun d hd => by
  rw [h.head] at hd
  rw [h.core d, hs d hd]

theorem changed (h : Quiet s t) (hs : s.Ok) : Changed c s t where
  index := h.index
  seqno := fun he => h.seqno ▸ he
  ok := h.ok hs
  head := fun hb _ => by rwa [h.head]
  moves := fun d => .inl (h.core d)

theorem before (h : Quiet s t) (ht : Changed c t u) : Changed c s u where
  index := ht.index.trans h.index
  seqno := fun he => ht.seqno (h.seqno ▸ he)
  ok := ht.ok
  head := fun hb => ht.head (by rwa [h.head])
  moves := fun d => by
    rw [← h.core d]
    exact ht.moves d

end Quiet

@[simp] theorem setRt_self (s : AodvAgent) (d : ℤ) (rt : RtEntry) : (s.setRt d rt).rt d = rt :=
  Function.update_self ..

theorem setRt_other (s : AodvAgent) {d x : ℤ} (rt : RtEntry) (hx : x ≠ d) :
    (s.setRt d rt).rt x = s.rt x := Function.update_of_ne hx ..

theorem quiet_setRt (h : rt.core = (s.rt d).core) : Quiet s (s.setRt d rt) := by
  refine ⟨rfl, rfl, rfl, fun x => ?_⟩
  by_cases hx : x = d
  · rw [hx, setRt_self, h]
  · rw [setRt_other s rt hx]

theorem quiet_enque (s : AodvAgent) (now : ℚ) (p : Ip) : Quiet s (s.enque now p) :=
  ⟨rfl, rfl, rfl, fun _ => rfl⟩

theorem quiet_dequeAll (s : AodvAgent) (now : ℚ) (d : ℤ) : Quiet s (s.dequeAll now d).1 :=
  ⟨rfl, rfl, rfl, fun _ => rfl⟩

theorem Ok.ensure (h : s.Ok) (d : ℤ) : (s.rt_ensure d).Ok ∧ d ∈ (s.rt_ensure d).rthead ∧
    (s.rt_ensure d).index = s.index ∧ (s.rt_ensure d).seqno = s.seqno ∧
    (∀ x, x ∈ (s.rt_ensure d).rthead ↔ x = d ∨ x ∈ s.rthead) ∧
    ∀ x, ((s.rt_ensure d).rt x).core = (s.rt x).core := by
  rw [rt_ensure]
  split_ifs with hd
  · exact ⟨h, hd, rfl, rfl, fun x => ⟨.inr, fun hx => hx.elim (· ▸ hd) id⟩, fun _ => rfl⟩
  · have hcore : ∀ x, ((s.rt_add d).rt x).core = (s.rt x).core := fun x => by
      by_cases hx : x = d
      · rw [hx, h d hd]
        exact congrArg RtEntry.core (Function.update_self ..)
      · exact congrArg RtEntry.core (Function.update_of_ne hx ..)
    refine ⟨fun x hx => ?_, List.mem_cons_self, rfl, rfl, fun x => List.mem_cons, hcore⟩
    rw [hcore x]
    exact h x fun hmem => hx (List.mem_cons_of_mem d hmem)

namespace Changed

theorem quiet (h : Changed c s t) (hq : Quiet t u) : Changed c s u where
  index := hq.index.trans h.index
  seqno := fun he => hq.seqno ▸ h.seqno he
  ok := hq.ok h.ok
  head := fun hb hc => by
    rw [hq.head]
    exact h.head hb hc
  moves := fun d => by
    rw [hq.core d]
    exact h.moves d

/-- The node gives itself a new number. -/
theorem renew (h : Changed c s t) {k : ℕ} (hk : Own k) : Changed c s { t with seqno := k } :=
  ⟨h.index, fun _ => hk, h.ok, h.head, h.moves⟩

theorem nothing (h : Changed c s t) : Handled c s (t, []) := ⟨h, List.forall_mem_nil _⟩

theorem sends (h : Changed c s t) {m : Msg} (hm : Sent c t m) : Handled c s (t, [m]) :=
  ⟨h, fun x hx => by
    obtain rfl := List.mem_singleton.mp hx
    exact hm⟩

end Changed

theorem Ok.same (h : s.Ok) : Changed c s s := (Quiet.refl s).changed h

theorem Ok.set (h : s.Ok) (hd : d ∈ s.rthead)
    (hm : rt.core = (s.rt d).core ∨ Move c d (s.rt d).core rt.core) :
    Changed c s (s.setRt d rt) := by
  refine ⟨rfl, id, fun x hx => ?_, fun hb _ => hb, fun x => ?_⟩
  · rw [setRt_other s rt fun he : x = d => hx (show x ∈ s.rthead from he ▸ hd)]
    exact h x hx
  · by_cases hx : x = d
    · rw [hx, setRt_self]
      exact hm
    · rw [setRt_other s rt hx]
      exact .inl rfl

/-- An entry is added, and then it changes. -/
theorem Ok.after_ensure (h : s.Ok) (hd : (∀ j x k i p, c = .heard j x k i p → x ≠ broadcast) →
      d ≠ broadcast) (ht : Changed c (s.rt_ensure d) t) : Changed c s t := by
  obtain ⟨-, -, hindex, hseqno, hmem, hcore⟩ := h.ensure d
  refine ⟨ht.index.trans hindex, fun he => ht.seqno (hseqno ▸ he), ht.ok, fun hb hc => ?_,
    fun x => ?_⟩
  · refine ht.head (fun hmem' => ?_) hc
    rcases (hmem broadcast).mp hmem' with he | hmem'
    · exact hd hc he.symm
    · exact hb hmem'
  · rw [← hcore x]
    exact ht.moves x

theorem forward_quiet {ttl daddr : ℤ} {r : AodvAgent × Option ℤ}
    (h : s.forward now d ttl daddr = some r) : Quiet s r.1 ∧ (r.2 ≠ none → ttl ≠ 0) := by
  rw [forward] at h
  split_ifs at h with h1 h2
  · cases h
    exact ⟨.refl s, fun hn => absurd rfl hn⟩
  · cases h
    exact ⟨quiet_setRt rfl, fun _ h0 => h1 (.inl h0)⟩

theorem forwardAll_quiet {ps : List Ip} (h : forwardAll now d s ps = some t) : Quiet s t := by
  induction ps generalizing s with
  | nil =>
    cases h
    exact .refl _
  | cons p ps ih =>
    obtain ⟨r, hr, hrest⟩ := Option.bind_eq_some_iff.mp h
    exact (forward_quiet hr).1.trans (ih hrest)

theorem serve_quiet (h : s.serve now d = some t) : Quiet s t := by
  rw [serve] at h
  split_ifs at h
  exact (quiet_dequeAll s now d).trans (forwardAll_quiet h)

theorem sendRequest_handled (hs : s.Ok) {r : AodvAgent × List Msg}
    (h : s.sendRequest now perHop d = some r) : Handled c s r := by
  rw [sendRequest] at h
  dsimp only at h
  split_ifs at h with h1 h2 h3 h4 h5
  · cases h
    exact hs.same.nothing
  · cases h
    exact hs.same.nothing
  · cases h
    refine (Quiet.changed (.trans (quiet_setRt ?_) (quiet_dequeAll _ now d)) hs).nothing
    rfl
  · cases h
    have hq : Quiet s (s.setRt d { s.rt d with
        rt_req_last_ttl := (requestTtl (s.rt d)).1
        rt_req_cnt := (requestTtl (s.rt d)).2
        rt_req_timeout := requestTimeout now perHop (requestTtl (s.rt d)).1 (requestTtl (s.rt d)).2
        rt_expire := 0 }) := quiet_setRt rfl
    have hown : Own (plus s.seqno 2) := ⟨not_not.mp h5, Nat.mod_lt _ (by decide)⟩
    have hch : Changed c s { s.setRt d { s.rt d with
        rt_req_last_ttl := (requestTtl (s.rt d)).1
        rt_req_cnt := (requestTtl (s.rt d)).2
        rt_req_timeout := requestTimeout now perHop (requestTtl (s.rt d)).1 (requestTtl (s.rt d)).2
        rt_expire := 0 } with
        seqno := plus s.seqno 2
        bid := plus s.bid 1 } := by
      obtain ⟨h1, h2, h3, h4, h5⟩ := (hq.changed (c := c) hs).renew hown
      exact ⟨h1, h2, h3, h4, h5⟩
    refine hch.sends ⟨fun j d k h he => ?_, fun j l he => by cases he⟩
    cases he
    exact ⟨rfl, .inl ⟨rfl, rfl, rfl⟩⟩

end AodvAgent

end Ns2
