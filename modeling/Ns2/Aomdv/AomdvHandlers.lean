import Ns2.Aomdv.AomdvEntries

/-! The handlers of an AOMDV node keep its entries, meet no failed assertion, and send about a
destination what the entry says. -/

namespace Ns2

open AomdvRtEntry

/-- A sequence number as the destination gives it. -/
def AomdvSeqno (seqno : ℕ) : Prop := seqno % 2 = 0 ∧ 2 ≤ seqno ∧ seqno < 2 ^ 32

/-- A sequence number as it is reported with a lost destination. -/
def AomdvLostSeqno (seqno : ℕ) : Prop := seqno % 2 = 1 ∨ seqno = 0

namespace AomdvMsg

/-- What a message says: its sender, a destination, a sequence number and a hop count. -/
def announces : AomdvMsg → Option (ℤ × ℤ × ℕ × ℕ)
  | .request ih rq => some (ih.saddr, rq.rq_src, rq.rq_src_seqno, rq.rq_hop_count)
  | .reply _ _ rp => some (rp.rp_src, rp.rp_dst, rp.rp_dst_seqno, rp.rp_hop_count)
  | .hello saddr seqno _ => some (saddr, saddr, seqno, 0)
  | .error _ _ => none

/-- A message that a node can receive. -/
structure Ok (Told : ℤ → ℤ → ℕ → ℕ → Prop) (m : AomdvMsg) : Prop where
  told : ∀ j d s h, m.announces = some (j, d, s, h) →
    Told j d s h ∧ AomdvSeqno s ∧ h < 256 ∧ d ≠ aomdvBroadcast
  lost : ∀ j l, m = .error j l → ∀ x ∈ l, AomdvLostSeqno x.2
  broadcast : ∀ ih rq, m = .request ih rq → ih.daddr = aomdvBroadcast

end AomdvMsg

namespace Aomdv

variable {Told : ℤ → ℤ → ℕ → ℕ → Prop} {n d : ℤ} {s t u : Aomdv} {now : ℚ}

/-- How many paths an entry can have: the first one is always taken. -/
def cap (s : Aomdv) : ℤ := max s.aomdv_max_paths_ 1

theorem one_le_cap (s : Aomdv) : 1 ≤ s.cap := le_max_right _ _

/-- A node at the address `n`. -/
structure Ok (Told : ℤ → ℤ → ℕ → ℕ → Prop) (n : ℤ) (s : Aomdv) : Prop where
  index : s.index = n
  address : n ≠ aomdvBroadcast
  seqno : s.seqno % 2 = 0 ∧ s.seqno < 2 ^ 32
  entries : ∀ d, (s.rt d).Ok Told s.cap n d
  head : aomdvBroadcast ∉ s.rthead
  absent : ∀ d, d ∉ s.rthead → (s.rt d).rt_flags ≠ .RTF_UP ∧ (s.rt d).rt_seqno = 0

/-- Entries evolve, and no hop count is fixed. -/
structure Keeps (s t : Aomdv) : Prop where
  index : t.index = s.index
  seqno : t.seqno = s.seqno
  max_paths : t.aomdv_max_paths_ = s.aomdv_max_paths_
  head : ∀ d ∈ s.rthead, d ∈ t.rthead
  quiet : ∀ d, Quiet (s.rt d) (t.rt d)

/-- Entries are refreshed only. -/
structure Refreshes (s t : Aomdv) : Prop where
  index : t.index = s.index
  seqno : t.seqno = s.seqno
  max_paths : t.aomdv_max_paths_ = s.aomdv_max_paths_
  head : t.rthead = s.rthead
  refreshed : ∀ d, Refreshed (s.rt d) (t.rt d)

/-- What a node sends: about itself its own number, and about others what it has fixed. -/
structure From (n : ℤ) (t : Aomdv) (m : AomdvMsg) : Prop where
  announces : ∀ j d s h, m.announces = some (j, d, s, h) → j = n ∧ d ≠ aomdvBroadcast ∧
    (d = n ∧ h = 0 ∧ s = t.seqno ∨ d ≠ n ∧ (t.rt d).rt_flags = .RTF_UP ∧
      s = (t.rt d).rt_seqno ∧ (t.rt d).rt_advertised_hops ≠ aomdvInfinity ∧
      h = (t.rt d).rt_advertised_hops % 256)
  lost : ∀ j l, m = .error j l → ∀ x ∈ l, AomdvLostSeqno x.2
  broadcast : ∀ ih rq, m = .request ih rq → ih.daddr = aomdvBroadcast

/-- What a handler leaves and sends. -/
structure Handles (Told : ℤ → ℤ → ℕ → ℕ → Prop) (n : ℤ) (s : Aomdv) (r : Aomdv × List AomdvMsg) :
    Prop where
  ok : r.1.Ok Told n
  evolves : ∀ d, Evolves (s.rt d) (r.1.rt d)
  sent : ∀ m ∈ r.2, From n r.1 m

theorem Refreshes.refl (s : Aomdv) : Refreshes s s := ⟨rfl, rfl, rfl, rfl, fun _ => .refl _⟩

theorem Refreshes.trans (h1 : Refreshes s t) (h2 : Refreshes t u) : Refreshes s u :=
  ⟨h2.index.trans h1.index, h2.seqno.trans h1.seqno, h2.max_paths.trans h1.max_paths,
    h2.head.trans h1.head, fun d => (h1.refreshed d).trans (h2.refreshed d)⟩

theorem Refreshes.keeps (h : Refreshes s t) : Keeps s t :=
  ⟨h.index, h.seqno, h.max_paths, fun _ hd => h.head.symm ▸ hd, fun d => (h.refreshed d).quiet⟩

theorem Keeps.trans (h1 : Keeps s t) (h2 : Keeps t u) : Keeps s u :=
  ⟨h2.index.trans h1.index, h2.seqno.trans h1.seqno, h2.max_paths.trans h1.max_paths,
    fun d hd => h2.head d (h1.head d hd), fun d => (h1.quiet d).trans (h2.quiet d)⟩

theorem Ok.refreshes (h : s.Ok Told n) (hr : Refreshes s t) : t.Ok Told n := by
  refine ⟨hr.index.trans h.index, h.address, ?_, fun d => ?_, ?_, fun d hd => ?_⟩
  · rw [hr.seqno]
    exact h.seqno
  · rw [cap, hr.max_paths]
    exact (h.entries d).refresh (hr.refreshed d)
  · rw [hr.head]
    exact h.head
  · rw [hr.head] at hd
    rw [(hr.refreshed d).flags, (hr.refreshed d).seqno]
    exact h.absent d hd

theorem Keeps.handles (hk : Keeps s t) (h : t.Ok Told n) : Handles Told n s (t, []) :=
  ⟨h, fun d => (hk.quiet d).evolves, List.forall_mem_nil _⟩

theorem Handles.after {r : Aomdv × List AomdvMsg} (hk : Keeps s t) (h : Handles Told n t r) :
    Handles Told n s r :=
  ⟨h.ok, fun d => (hk.quiet d).trans_evolves (h.evolves d), h.sent⟩

theorem Ok.mem_of_up (h : s.Ok Told n) (hup : (s.rt d).rt_flags = .RTF_UP) : d ∈ s.rthead := by
  by_contra hd
  exact (h.absent d hd).1 hup

@[simp] theorem setRt_self (s : Aomdv) (d : ℤ) (rt : AomdvRtEntry) : (s.setRt d rt).rt d = rt :=
  Function.update_self ..

theorem setRt_other (s : Aomdv) {d x : ℤ} (rt : AomdvRtEntry) (hx : x ≠ d) :
    (s.setRt d rt).rt x = s.rt x := Function.update_of_ne hx ..

/-- A property of all entries after one is written. -/
theorem forall_setRt {P : ℤ → AomdvRtEntry → Prop} {rt : AomdvRtEntry} (hd : P d rt)
    (hother : ∀ x, x ≠ d → P x (s.rt x)) (x : ℤ) : P x ((s.setRt d rt).rt x) := by
  by_cases hx : x = d
  · rw [hx, setRt_self]
    exact hd
  · rw [setRt_other s rt hx]
    exact hother x hx

theorem Ok.setRt (h : s.Ok Told n) (hd : d ∈ s.rthead) {rt : AomdvRtEntry}
    (hrt : rt.Ok Told s.cap n d) : (s.setRt d rt).Ok Told n :=
  ⟨h.index, h.address, h.seqno,
    forall_setRt (P := fun x rt => rt.Ok Told s.cap n x) hrt fun x _ => h.entries x,
    h.head, fun x hx => by
      have hne : x ≠ d := fun he => hx (by rw [he]; exact hd)
      rw [setRt_other s rt hne]
      exact h.absent x hx⟩

theorem keeps_setRt (s : Aomdv) {rt : AomdvRtEntry} (hrt : Quiet (s.rt d) rt) :
    Keeps s (s.setRt d rt) :=
  ⟨rfl, rfl, rfl, fun _ hx => hx,
    forall_setRt (P := fun x rt => Quiet (s.rt x) rt) hrt fun _ _ => .refl _⟩

theorem refreshes_setRt (s : Aomdv) {rt : AomdvRtEntry} (hrt : Refreshed (s.rt d) rt) :
    Refreshes s (s.setRt d rt) :=
  ⟨rfl, rfl, rfl, rfl,
    forall_setRt (P := fun x rt => Refreshed (s.rt x) rt) hrt fun _ _ => .refl _⟩

theorem Ok.rt_ensure (h : s.Ok Told n) (hd : d ≠ aomdvBroadcast) :
    (s.rt_ensure d).Ok Told n ∧ Keeps s (s.rt_ensure d) ∧ d ∈ (s.rt_ensure d).rthead := by
  by_cases hmem : d ∈ s.rthead
  · have hs : s.rt_ensure d = s := by
      rw [Aomdv.rt_ensure, rt_lookup, if_pos hmem, if_neg (Option.some_ne_none _)]
    rw [hs]
    exact ⟨h, (Refreshes.refl s).keeps, hmem⟩
  · have hs : s.rt_ensure d = s.rt_add d := by
      rw [Aomdv.rt_ensure, rt_lookup, if_neg hmem, if_pos rfl]
    rw [hs]
    have hother : ∀ x, x ≠ d → (s.rt_add d).rt x = s.rt x := fun x hx =>
      Function.update_of_ne hx ..
    have hself : (s.rt_add d).rt d = .new := Function.update_self ..
    obtain ⟨hflags, hzero⟩ := h.absent d hmem
    refine ⟨⟨h.index, h.address, h.seqno, fun x => ?_, ?_, fun x hx => ?_⟩,
      ⟨rfl, rfl, rfl, fun x hx => List.mem_cons_of_mem d hx, fun x => ?_⟩, List.mem_cons_self⟩
    · by_cases hx : x = d
      · rw [hx, hself]
        exact ok_new (zero_le_one.trans s.one_le_cap)
      · rw [hother x hx]
        exact h.entries x
    · exact List.not_mem_cons_of_ne_of_not_mem hd.symm h.head
    · obtain ⟨hne, hx⟩ := not_or.mp (mt List.mem_cons.mpr hx)
      rw [hother x hne]
      exact h.absent x hx
    · by_cases hx : x = d
      · rw [hx, hself]
        exact ⟨.inr ⟨hzero, fun hu => absurd hu hflags⟩, fun hu => absurd hu (by decide)⟩
      · rw [hother x hx]
        exact .refl _

variable (now) in
/-- A packet for one node is sent along the first path. -/
theorem Ok.forward (h : s.Ok Told n) (hup : (s.rt d).rt_flags = .RTF_UP) {i : AomdvIp}
    (hdaddr : i.daddr ≠ aomdvBroadcast) :
    ∃ r, s.forward now (some d) i = some r ∧ Refreshes s r.1 := by
  rw [Aomdv.forward]
  by_cases httl : i.ttl = 0
  · rw [if_pos httl]
    exact ⟨_, rfl, .refl s⟩
  rw [if_neg httl]
  by_cases hself : ¬ i.aomdv ∧ i.up ∧ i.daddr = aomdvBroadcast ∨ i.daddr = s.index
  · rw [if_pos hself]
    exact ⟨_, rfl, .refl s⟩
  · rw [if_neg hself]
    dsimp only
    rw [if_neg (not_not.mpr hup)]
    obtain ⟨p, l, hl⟩ := List.exists_cons_of_ne_nil ((h.entries d).up.mp hup)
    rw [path_find, hl, List.head?_cons, Option.bind_some, if_neg hdaddr]
    refine ⟨_, rfl, refreshes_setRt s ⟨rfl, rfl, rfl, ?_, rfl, rfl⟩⟩
    rw [← hl]
    exact map_adjustExpire _ _ _

variable (now) in
theorem Ok.forwardAll (h : s.Ok Told n) (hd : d ∈ s.rthead) {ps : List AomdvIp}
    (hps : ∀ p ∈ ps, p.daddr = d) : ∃ t, forwardAll now d s ps = some t ∧ Refreshes s t := by
  induction ps generalizing s with
  | nil => exact ⟨s, rfl, .refl s⟩
  | cons p ps ih =>
    have hrest : ∀ q ∈ ps, q.daddr = d := fun q hq => hps q (List.mem_cons_of_mem p hq)
    rw [Aomdv.forwardAll]
    split_ifs with hup
    · have hdaddr : p.daddr ≠ aomdvBroadcast := by
        rw [hps p List.mem_cons_self]
        exact fun he => h.head (he ▸ hd)
      obtain ⟨r, hr, hrs⟩ := h.forward now hup hdaddr
      obtain ⟨t, ht, hrt⟩ := ih (h.refreshes hrs) (hrs.head.symm ▸ hd) hrest
      rw [hr, Option.bind_some]
      exact ⟨t, ht, hrs.trans hrt⟩
    · exact ih h hd hrest

theorem dequeAll_spec (s : Aomdv) (now : ℚ) (d : ℤ) :
    Refreshes s (s.dequeAll now d).1 ∧ ∀ p ∈ (s.dequeAll now d).2, p.daddr = d := by
  refine ⟨⟨rfl, rfl, rfl, rfl, fun _ => .refl _⟩, fun p hp => ?_⟩
  obtain ⟨x, hx, rfl⟩ := List.mem_map.mp hp
  exact of_decide_eq_true (List.mem_filter.mp hx).2

variable (now) in
theorem Ok.routeUp (h : s.Ok Told n) (hd : d ∈ s.rthead) :
    ∃ t, s.routeUp now d = some t ∧ Refreshes s t := by
  rw [Aomdv.routeUp]
  split_ifs
  · have hreset : Refreshes s (s.setRt d (s.rt d).resetRequests) :=
      refreshes_setRt s ⟨rfl, rfl, rfl, rfl, rfl, rfl⟩
    obtain ⟨hdeq, hps⟩ := dequeAll_spec (s.setRt d (s.rt d).resetRequests) now d
    obtain ⟨t, ht, hrt⟩ := (h.refreshes (hreset.trans hdeq)).forwardAll now (d := d)
      hd hps
    exact ⟨t, ht, (hreset.trans hdeq).trans hrt⟩
  · exact ⟨s, rfl, .refl s⟩

/-- A path that is known already has the hop count that is heard. -/
theorem hopcount_known {rt : AomdvRtEntry} {maxPaths : ℤ} (h : rt.Ok Told maxPaths n d)
    (hfun : ∀ j d s h h', Told j d s h → Told j d s h' → h = h') {nexthop lasthop : ℤ} {hop : ℕ}
    (htold : Told nexthop d rt.rt_seqno hop) {p : AomdvPath}
    (hp : rt.disjoint_path_lookup nexthop lasthop = some p) : p.hopcount = hop + 1 := by
  have hfound := List.find?_some hp
  have hkey := of_decide_eq_true hfound
  obtain ⟨k, -, hk, ht⟩ := h.told p (List.mem_of_find?_eq_some hp)
  rw [hkey.1] at ht
  rw [hk, hfun _ _ _ _ _ ht htold]

theorem up_of_even {rt : AomdvRtEntry} {maxPaths : ℤ} (h : rt.Ok Told maxPaths n d)
    (hs : AomdvSeqno rt.rt_seqno) : rt.rt_flags = .RTF_UP := by
  by_contra hne
  have hodd := (h.odd hne).2
  obtain ⟨h1, h2, -⟩ := hs
  omega

variable (s now) in
/-- The reverse path of a request. -/
theorem reversePath_spec {rt0 : AomdvRtEntry}
    (hfun : ∀ j d s h h', Told j d s h → Told j d s h' → h = h') {saddr : ℤ} {rq : AomdvRequest}
    (h : rt0.Ok Told s.cap n rq.rq_src)
    (htold : Told saddr rq.rq_src rq.rq_src_seqno rq.rq_hop_count)
    (hseqno : AomdvSeqno rq.rq_src_seqno) (hhop : rq.rq_hop_count < 256) (hne : rq.rq_src ≠ n) :
    ∃ r, s.reversePath now saddr rq rt0 = some r ∧ r.1.Ok Told s.cap n rq.rq_src ∧
      Quiet rt0 r.1 ∧ (r.2 ≠ none → r.1.rt_flags = .RTF_UP ∧ r.1.rt_seqno = rq.rq_src_seqno) := by
  rw [Aomdv.reversePath]
  dsimp only
  by_cases hnewer : rt0.rt_seqno < rq.rq_src_seqno
  · rw [if_pos hnewer]
    obtain ⟨h1, h2⟩ := h.renew s.one_le_cap rq.rq_first_hop (now + revRouteLife)
      hnewer hseqno.1 hseqno.2.2 hne hhop htold
    exact ⟨_, rfl, h1, h2, fun _ => ⟨rfl, rfl⟩⟩
  rw [if_neg hnewer]
  by_cases hsame : rt0.rt_seqno = rq.rq_src_seqno ∧ rt0.rt_advertised_hops > rq.rq_hop_count
  swap
  · rw [if_neg hsame]
    exact ⟨_, rfl, h, .refl _, fun hn => absurd rfl hn⟩
  rw [if_pos hsame]
  obtain ⟨heq, hadv⟩ := hsame
  have hup : rt0.rt_flags = .RTF_UP := up_of_even h (by rw [heq]; exact hseqno)
  rw [← heq] at htold
  rw [if_neg (not_not.mpr hup)]
  cases hlook : rt0.disjoint_path_lookup saddr rq.rq_first_hop with
  | some p =>
    dsimp only
    rw [if_neg (not_not.mpr (hopcount_known h hfun htold hlook))]
    have hr := refreshed_adjust rt0 (fun p => p.nexthop = saddr ∧ p.lasthop = rq.rq_first_hop)
      (fun e => max e (now + revRouteLife))
    exact ⟨_, rfl, h.refresh hr, hr.quiet, fun _ => ⟨hup, heq⟩⟩
  | none =>
    dsimp only
    by_cases hnew : rt0.new_disjoint_path saddr rq.rq_first_hop
    · rw [if_pos hnew]
      obtain ⟨rt1, hrt1⟩ : ∃ rt1 : AomdvRtEntry,
          (if rt0.rt_num_paths_ < s.aomdv_max_paths_ ∧
            ((rq.rq_hop_count + 1 : ℕ) : ℤ) - rt0.path_get_min_hopcount ≤
              s.aomdv_prim_alt_path_len_diff_ then
            rt0.extend saddr (rq.rq_hop_count + 1) (now + revRouteLife) rq.rq_first_hop
          else rt0) = rt1 := ⟨_, rfl⟩
      rw [hrt1]
      have hok : rt1.Ok Told s.cap n rq.rq_src ∧ Quiet rt0 rt1 ∧
          rt1.rt_flags = .RTF_UP ∧ rt1.rt_seqno = rq.rq_src_seqno := by
        rw [← hrt1]
        split_ifs with hfits
        · obtain ⟨h1, h2⟩ := h.extend (e := now + revRouteLife) hup hadv hnew (lt_max_of_lt_left hfits.1) hhop htold
          exact ⟨h1, h2, hup, heq⟩
        · exact ⟨h, .refl _, hup, heq⟩
      obtain ⟨h1, h2, h3, h4⟩ := hok
      split_ifs
      · exact ⟨_, rfl, h1, h2, fun hn => absurd rfl hn⟩
      · exact ⟨_, rfl, h1, h2, fun _ => ⟨h3, h4⟩⟩
    · rw [if_neg hnew]
      split_ifs
      · exact ⟨_, rfl, h, .refl _, fun hn => absurd rfl hn⟩
      · exact ⟨_, rfl, h, .refl _, fun _ => ⟨hup, heq⟩⟩

variable (s now) in
/-- The forward path of a reply. -/
theorem forwardPath_spec {rt : AomdvRtEntry}
    (hfun : ∀ j d s h h', Told j d s h → Told j d s h' → h = h') {rp : AomdvReply}
    (h : rt.Ok Told s.cap n rp.rp_dst)
    (htold : Told rp.rp_src rp.rp_dst rp.rp_dst_seqno rp.rp_hop_count)
    (hseqno : AomdvSeqno rp.rp_dst_seqno) (hhop : rp.rp_hop_count < 256) (hne : rp.rp_dst ≠ n) :
    ∃ r, s.forwardPath now rp rt = some r ∧ r.1.Ok Told s.cap n rp.rp_dst ∧
      Quiet rt r.1 ∧ (r.2 = true → r.1.rt_flags = .RTF_UP ∧ r.1.rt_seqno = rp.rp_dst_seqno) := by
  rw [Aomdv.forwardPath]
  by_cases hnewer : rt.rt_seqno < rp.rp_dst_seqno
  · rw [if_pos hnewer]
    obtain ⟨h1, h2⟩ := h.renew s.one_le_cap rp.rp_first_hop (now + rp.rp_lifetime)
      hnewer hseqno.1 hseqno.2.2 hne hhop htold
    exact ⟨_, rfl, h1, h2, fun _ => ⟨rfl, rfl⟩⟩
  rw [if_neg hnewer]
  by_cases hsame : rt.rt_seqno = rp.rp_dst_seqno ∧ rt.rt_advertised_hops > rp.rp_hop_count
  swap
  · rw [if_neg hsame]
    exact ⟨_, rfl, h, .refl _, fun hn => absurd hn Bool.false_ne_true⟩
  rw [if_pos hsame]
  obtain ⟨heq, hadv⟩ := hsame
  have hup : rt.rt_flags = .RTF_UP := up_of_even h (by rw [heq]; exact hseqno)
  rw [← heq] at htold
  rw [if_neg (not_not.mpr hup)]
  cases hlook : rt.disjoint_path_lookup rp.rp_src rp.rp_first_hop with
  | some p =>
    dsimp only
    rw [if_neg (not_not.mpr (hopcount_known h hfun htold hlook))]
    have hr := refreshed_adjust rt (fun p => p.nexthop = rp.rp_src ∧ p.lasthop = rp.rp_first_hop)
      (fun e => max e (now + rp.rp_lifetime))
    exact ⟨_, rfl, h.refresh hr, hr.quiet, fun _ => ⟨hup, heq⟩⟩
  | none =>
    dsimp only
    split_ifs with hfits
    · obtain ⟨h1, h2⟩ := h.extend (e := now + rp.rp_lifetime) hup hadv hfits.1
        (lt_max_of_lt_left hfits.2.1) hhop htold
      exact ⟨_, rfl, h1, h2, fun _ => ⟨hup, heq⟩⟩
    · exact ⟨_, rfl, h, .refl _, fun hn => absurd hn Bool.false_ne_true⟩

theorem From.refreshes {m : AomdvMsg} (h : From n t m) (hr : Refreshes t u) : From n u m := by
  refine ⟨fun j d s k hm => ?_, h.lost, h.broadcast⟩
  obtain ⟨hj, hd, hown⟩ := h.announces j d s k hm
  rw [hr.seqno, (hr.refreshed d).flags, (hr.refreshed d).seqno, (hr.refreshed d).hops]
  exact ⟨hj, hd, hown⟩

theorem Handles.refreshes {out : List AomdvMsg} (h : Handles Told n s (t, out))
    (hr : Refreshes t u) : Handles Told n s (u, out) :=
  ⟨h.ok.refreshes hr, fun d => (h.evolves d).refreshed (hr.refreshed d),
    fun m hm => (h.sent m hm).refreshes hr⟩

/-- A hop count is fixed, and may be sent. -/
theorem Ok.advertised (h : s.Ok Told n) (hup : (s.rt d).rt_flags = .RTF_UP) (rt : AomdvRtEntry)
    (hr : Refreshed (s.rt d).advertise rt) :
    Handles Told n s (s.setRt d rt, []) ∧
      ∀ m : AomdvMsg, m.announces = some (n, d, (s.rt d).advertise.rt_seqno,
          (s.rt d).advertise.rt_advertised_hops % 256) →
        (∀ ih rq, m = .request ih rq → ih.daddr = aomdvBroadcast) → From n (s.setRt d rt) m := by
  obtain ⟨hok, hev, hinf, hup', hseq, -⟩ := (h.entries d).advertise hup
  have hmem := h.mem_of_up hup
  refine ⟨⟨h.setRt hmem (hok.refresh hr),
    forall_setRt (P := fun x rt => Evolves (s.rt x) rt) (hev.refreshed hr)
      fun x _ => (Quiet.refl _).evolves, List.forall_mem_nil _⟩, fun m hm hbroad => ?_⟩
  refine ⟨fun j d' s' k hm' => ?_, fun j l he => ?_, hbroad⟩
  · rw [hm] at hm'
    obtain ⟨rfl, rfl, rfl, rfl⟩ : n = j ∧ d = d' ∧ (s.rt d).advertise.rt_seqno = s' ∧
        (s.rt d).advertise.rt_advertised_hops % 256 = k := by simpa using hm'
    refine ⟨rfl, fun he => h.head (he ▸ hmem), .inr ⟨(h.entries d).ne_self hup, ?_⟩⟩
    rw [setRt_self, hr.flags, hr.seqno, hr.hops]
    exact ⟨hup', rfl, hinf, rfl⟩
  · rw [he] at hm
    cases hm

theorem Handles.cons {m : AomdvMsg} (h : Handles Told n s (t, [])) (hm : From n t m) :
    Handles Told n s (t, [m]) :=
  ⟨h.ok, h.evolves, fun x hx => by rw [List.mem_singleton.mp hx]; exact hm⟩

theorem Ok.answerRoute (h : s.Ok Told n) {ih : AomdvIp} {rq : AomdvRequest}
    (hup : (s.rt rq.rq_dst).rt_flags = .RTF_UP) :
    ∃ r, s.answerRoute now ih rq = some r ∧ Handles Told n s r := by
  rw [Aomdv.answerRoute]
  split_ifs
  · obtain ⟨hok, -, -, hup', -, hpaths⟩ := (h.entries rq.rq_dst).advertise hup
    obtain ⟨p, l, hl⟩ := List.exists_cons_of_ne_nil (hok.up.mp hup')
    have hcount : Refreshes s (s.id_count rq.rq_src rq.rq_bcast_id) :=
      ⟨rfl, rfl, rfl, rfl, fun _ => .refl _⟩
    obtain ⟨h1, h2⟩ := (h.refreshes hcount).advertised (d := rq.rq_dst) hup
      { (s.rt rq.rq_dst).advertise with rt_error := true } ⟨rfl, rfl, rfl, rfl, rfl, rfl⟩
    dsimp only
    change ∃ r, ((s.rt rq.rq_dst).advertise.path_find.bind _) = some r ∧ _
    rw [path_find, hl, List.head?_cons, Option.bind_some]
    refine ⟨_, rfl, Handles.after hcount.keeps (h1.cons (h2 _ ?_ fun ih rq he => ?_))⟩
    · rw [sendReply, AomdvMsg.announces]
      change some (s.index, _) = _
      rw [h.index]
    · cases he
  · exact ⟨_, rfl, (Refreshes.refl s).keeps.handles h⟩

theorem Ok.forwardRequest (h : s.Ok Told n) {ih : AomdvIp} {rq : AomdvRequest}
    (hdaddr : ih.daddr = aomdvBroadcast) (hup : (s.rt rq.rq_src).rt_flags = .RTF_UP)
    (hseq : (s.rt rq.rq_src).rt_seqno = rq.rq_src_seqno) :
    ∃ r, s.forwardRequest now ih rq = some r ∧ Handles Told n s r := by
  obtain ⟨hok, -, -, hup', hseq', -⟩ := (h.entries rq.rq_src).advertise hup
  obtain ⟨p, l, hl⟩ := List.exists_cons_of_ne_nil (hok.up.mp hup')
  obtain ⟨h1, h2⟩ := h.advertised (d := rq.rq_src) hup (s.rt rq.rq_src).advertise (.refl _)
  rw [Aomdv.forwardRequest]
  dsimp only
  rw [path_find, hl, List.head?_cons, Option.bind_some, Aomdv.forward]
  dsimp only
  by_cases httl : ih.ttl = 0
  · rw [if_pos httl]
    exact ⟨_, rfl, h1⟩
  rw [if_neg httl]
  split_ifs with hself hb
  · exact ⟨_, rfl, h1⟩
  · exact absurd hdaddr hb
  · refine ⟨_, rfl, h1.cons (h2 _ ?_ fun ih' rq' he => ?_)⟩
    · rw [AomdvMsg.announces]
      change some (s.index, rq.rq_src, rq.rq_src_seqno, _) = _
      rw [h.index, hseq', hseq]
    · obtain ⟨rfl, -⟩ := AomdvMsg.request.inj he
      exact hdaddr

theorem id_count_refreshes (s : Aomdv) (id : ℤ) (bid : ℕ) : Refreshes s (s.id_count id bid) :=
  ⟨rfl, rfl, rfl, rfl, fun _ => .refl _⟩

theorem add32_even {a b : ℕ} (h : (a + b) % 2 = 0) : add32 a b % 2 = 0 ∧ add32 a b < 2 ^ 32 := by
  rw [add32]
  exact ⟨by omega, Nat.mod_lt _ (by decide)⟩

theorem answerSeqno_even (h : s.Ok Told n) (q : ℕ) :
    s.answerSeqno q % 2 = 0 ∧ s.answerSeqno q < 2 ^ 32 := by
  have hs := h.seqno
  rw [answerSeqno]
  by_cases hlt : s.seqno < q
  · rw [if_pos hlt]
    by_cases hodd : add32 q 1 % 2 ≠ 0
    · rw [if_pos hodd]
      exact add32_even (by omega)
    · rw [if_neg hodd]
      exact ⟨not_not.mp hodd, Nat.mod_lt _ (by decide)⟩
  · rw [if_neg hlt, if_neg (by omega)]
    exact hs

/-- A message of a node about itself. -/
theorem Ok.from_self (h : s.Ok Told n) {m : AomdvMsg}
    (hm : m.announces = some (n, n, s.seqno, 0))
    (hbroad : ∀ ih rq, m = .request ih rq → ih.daddr = aomdvBroadcast) : From n s m := by
  refine ⟨fun j d k c hm' => ?_, fun j l he => ?_, hbroad⟩
  · rw [hm] at hm'
    obtain ⟨rfl, rfl, rfl, rfl⟩ : n = j ∧ n = d ∧ s.seqno = k ∧ 0 = c := by simpa using hm'
    exact ⟨rfl, h.address, .inl ⟨rfl, rfl, rfl⟩⟩
  · rw [he] at hm
    cases hm

/-- Another own sequence number. -/
theorem Ok.withSeqno (h : s.Ok Told n) {k : ℕ} (hk : k % 2 = 0 ∧ k < 2 ^ 32) :
    Ok Told n { s with seqno := k } :=
  ⟨h.index, h.address, hk, h.entries, h.head, h.absent⟩

variable (now) in
theorem Ok.answerRequest (h : s.Ok Told n) (ih : AomdvIp) (rq : AomdvRequest)
    (hdaddr : ih.daddr = aomdvBroadcast) (hup : (s.rt rq.rq_src).rt_flags = .RTF_UP)
    (hseq : (s.rt rq.rq_src).rt_seqno = rq.rq_src_seqno) (reverse_path kill : Bool) :
    ∃ r, s.answerRequest now ih rq reverse_path kill = some r ∧ Handles Told n s r := by
  have hnothing : Handles Told n s (s, []) := (Refreshes.refl s).keeps.handles h
  rw [Aomdv.answerRequest]
  by_cases hdst : rq.rq_dst = s.index
  · rw [if_pos hdst]
    have hnew := h.withSeqno (answerSeqno_even h rq.rq_dst_seqno)
    refine ⟨_, rfl, Handles.cons ⟨hnew, fun d => (Quiet.refl _).evolves, List.forall_mem_nil _⟩
      (hnew.from_self ?_ fun _ _ he => ?_)⟩
    · rw [sendReply, AomdvMsg.announces]
      change some (s.index, s.index, _) = _
      rw [h.index]
    · cases he
  rw [if_neg hdst]
  by_cases hfresh : ((s.rt_lookup rq.rq_dst).any fun rt =>
      rt.rt_flags = .RTF_UP ∧ rt.rt_seqno ≥ rq.rq_dst_seqno) = true
  · rw [if_pos hfresh]
    have hdup : (s.rt rq.rq_dst).rt_flags = .RTF_UP := by
      rw [rt_lookup] at hfresh
      split_ifs at hfresh
      · simp at hfresh
        exact hfresh.1
      · simp at hfresh
    rw [if_neg (by have := (h.entries rq.rq_dst).even hdup; omega)]
    split_ifs
    · exact h.answerRoute hdup
    · exact ⟨_, rfl, hnothing⟩
  · rw [if_neg hfresh]
    split_ifs
    · exact ⟨_, rfl, hnothing⟩
    · exact h.forwardRequest hdaddr hup hseq

/-- A request that is received. -/
theorem Ok.recvRequest (h : s.Ok Told n)
    (hfun : ∀ j d s h h', Told j d s h → Told j d s h' → h = h') {ih ih' : AomdvIp}
    {rq : AomdvRequest} (hm : (AomdvMsg.request ih rq).Ok Told) (hsaddr : ih'.saddr = ih.saddr)
    (hdaddr : ih'.daddr = ih.daddr) :
    ∃ r, s.recvRequest now ih' rq = some r ∧ Handles Told n s r := by
  rw [Aomdv.recvRequest]
  by_cases hown : rq.rq_src = s.index
  · rw [if_pos hown]
    exact ⟨_, rfl, (Refreshes.refl s).keeps.handles h⟩
  rw [if_neg hown]
  dsimp only
  obtain ⟨htold, hseqno, hhop, hnb⟩ := hm.told _ _ _ _ rfl
  rw [← hsaddr] at htold
  have hne : rq.rq_src ≠ n := h.index ▸ hown
  -- the node with the identifier, and the request with its first hop
  obtain ⟨s1, hs1, hr1⟩ : ∃ s1 : Aomdv, (if (s.id_get rq.rq_src rq.rq_bcast_id).isSome = true then s
      else s.id_insert now rq.rq_src rq.rq_bcast_id) = s1 ∧ Refreshes s s1 := by
    split_ifs
    · exact ⟨_, rfl, .refl s⟩
    · exact ⟨_, rfl, rfl, rfl, rfl, rfl, fun _ => .refl _⟩
  rw [hs1]
  obtain ⟨q, hq, hqsrc, hqseq, hqhop⟩ : ∃ q : AomdvRequest, (if rq.rq_hop_count = 0 then
      { rq with rq_first_hop := s1.index } else rq) = q ∧ q.rq_src = rq.rq_src ∧
        q.rq_src_seqno = rq.rq_src_seqno ∧ q.rq_hop_count = rq.rq_hop_count := by
    split_ifs
    · exact ⟨_, rfl, rfl, rfl, rfl⟩
    · exact ⟨_, rfl, rfl, rfl, rfl⟩
  rw [hq]
  rw [← hqsrc] at htold hnb hne
  rw [← hqseq] at htold hseqno
  rw [← hqhop] at htold hhop
  obtain ⟨h2, hk2, hmem⟩ := (h.refreshes hr1).rt_ensure hnb
  generalize s1.rt_ensure q.rq_src = s2 at h2 hk2 hmem
  obtain ⟨r, hr, hrok, hrq, hrup⟩ := reversePath_spec s2 now hfun (h2.entries q.rq_src) htold
    hseqno hhop hne
  rw [hr, Option.bind_some]
  have h3 := h2.setRt hmem hrok
  have hk3 : Keeps s (s2.setRt q.rq_src r.1) := (hr1.keeps.trans hk2).trans (keeps_setRt s2 hrq)
  cases hout : r.2 with
  | none => exact ⟨_, rfl, hk3.handles h3⟩
  | some reverse_path =>
    obtain ⟨hup, hseq⟩ := hrup (by rw [hout]; exact Option.some_ne_none _)
    obtain ⟨s4, hs4, hr4⟩ := h3.routeUp now hmem
    dsimp only
    rw [hs4, Option.bind_some]
    obtain ⟨r', hr', hh⟩ := (h3.refreshes hr4).answerRequest now ih' q
      (hdaddr.trans (hm.broadcast ih rq rfl))
      (by rw [(hr4.refreshed _).flags, setRt_self]; exact hup)
      (by rw [(hr4.refreshed _).seqno, setRt_self]; exact hseq) reverse_path
      (s.id_get rq.rq_src rq.rq_bcast_id).isSome
    exact ⟨r', hr', Handles.after (hk3.trans hr4.keeps) hh⟩

variable (now) in
theorem Ok.forwardReply (h : s.Ok Told n) (ih : AomdvIp) (rp : AomdvReply)
    (hup : (s.rt rp.rp_dst).rt_flags = .RTF_UP) (hseq : (s.rt rp.rp_dst).rt_seqno = rp.rp_dst_seqno)
    (hback : (s.rt ih.daddr).rt_flags = .RTF_UP) :
    ∃ r, s.forwardReply now ih rp = some r ∧ Handles Told n s r := by
  rw [Aomdv.forwardReply]
  dsimp only
  have hcount := id_count_refreshes s ih.daddr rp.rp_bcast_id
  have hmem := h.mem_of_up hback
  have h0 := h.refreshes hcount
  change ∃ r, ((s.rt rp.rp_dst).advertise.path_find.bind _) = some r ∧ _
  obtain ⟨hok, -, -, hup', hseq', -⟩ := (h.entries rp.rp_dst).advertise hup
  obtain ⟨p, l, hl⟩ := List.exists_cons_of_ne_nil (hok.up.mp hup')
  obtain ⟨h1, h2⟩ := h0.advertised (d := rp.rp_dst) hup
    { (s.rt rp.rp_dst).advertise with rt_error := true } ⟨rfl, rfl, rfl, rfl, rfl, rfl⟩
  rw [path_find, hl, List.head?_cons, Option.bind_some]
  obtain ⟨s1, hs1⟩ : ∃ s1 : Aomdv, (s.id_count ih.daddr rp.rp_bcast_id).setRt rp.rp_dst
    { (s.rt rp.rp_dst).advertise with rt_error := true } = s1 := ⟨_, rfl⟩
  rw [hs1] at h1 h2
  change ∃ r, (Aomdv.forward (Aomdv.setRt ((s.id_count ih.daddr rp.rp_bcast_id).setRt rp.rp_dst
    { (s.rt rp.rp_dst).advertise with rt_error := true }) ih.daddr
      { ((s.id_count ih.daddr rp.rp_bcast_id).setRt rp.rp_dst
        { (s.rt rp.rp_dst).advertise with rt_error := true }).rt ih.daddr with
        rt_path_list := adjustExpire (fun _ => true) (fun _ => now + activeRouteTimeout)
          (((s.id_count ih.daddr rp.rp_bcast_id).setRt rp.rp_dst
            { (s.rt rp.rp_dst).advertise with rt_error := true }).rt ih.daddr).rt_path_list })
    now (some ih.daddr) ih).map _ = some r ∧ _
  rw [hs1]
  have hadj := refreshes_setRt s1 (refreshed_adjust (s1.rt ih.daddr) (fun _ => true)
    (fun _ => now + activeRouteTimeout))
  generalize s1.setRt ih.daddr _ = s2 at hadj
  have hup2 : (s2.rt ih.daddr).rt_flags = .RTF_UP := by
    rw [(hadj.refreshed _).flags, ← hs1]
    by_cases he : ih.daddr = rp.rp_dst
    · rw [he, setRt_self]
      exact hup'
    · rw [setRt_other _ _ he]
      exact hback
  obtain ⟨r, hr, hrr⟩ := (h1.ok.refreshes hadj).forward now hup2
    (fun he => h.head (he ▸ hmem))
  have hall := hadj.trans hrr
  rw [hr]
  refine ⟨_, rfl, Handles.after hcount.keeps ?_⟩
  have hdone := h1.refreshes hall
  dsimp only
  cases r.2 with
  | dropped => exact hdone
  | received => exact hdone
  | sent next_hop =>
    cases next_hop with
    | none => exact hdone
    | some next_hop =>
      refine hdone.cons ((h2 _ ?_ fun _ _ he => ?_).refreshes hall)
      · rw [AomdvMsg.announces]
        change some (s.index, rp.rp_dst, rp.rp_dst_seqno, _) =
          some (n, rp.rp_dst, (s.rt rp.rp_dst).advertise.rt_seqno, _)
        rw [h.index, hseq', hseq]
      · cases he

variable (now) in
/-- A reply that is received. -/
theorem Ok.recvReply (h : s.Ok Told n)
    (hfun : ∀ j d s h h', Told j d s h → Told j d s h' → h = h') (ih : AomdvIp) (rp : AomdvReply)
    (htold : Told rp.rp_src rp.rp_dst rp.rp_dst_seqno rp.rp_hop_count)
    (hseqno : AomdvSeqno rp.rp_dst_seqno) (hhop : rp.rp_hop_count < 256)
    (hnb : rp.rp_dst ≠ aomdvBroadcast) :
    ∃ r, s.recvReply now ih rp = some r ∧ Handles Told n s r := by
  rw [Aomdv.recvReply]
  by_cases hown : rp.rp_dst = s.index
  · rw [if_pos hown]
    exact ⟨_, rfl, (Refreshes.refl s).keeps.handles h⟩
  rw [if_neg hown]
  dsimp only
  obtain ⟨h2, hk2, hmem⟩ := h.rt_ensure hnb
  generalize s.rt_ensure rp.rp_dst = s2 at h2 hk2 hmem
  obtain ⟨r, hr, hrok, hrq, hrup⟩ := forwardPath_spec s2 now hfun (h2.entries rp.rp_dst) htold
    hseqno hhop (h.index ▸ hown)
  rw [hr, Option.bind_some]
  have h3 := h2.setRt hmem hrok
  have hk3 : Keeps s (s2.setRt rp.rp_dst r.1) := hk2.trans (keeps_setRt s2 hrq)
  by_cases hout : r.2 = true
  swap
  · rw [if_pos hout]
    exact ⟨_, rfl, hk3.handles h3⟩
  obtain ⟨hup, hseq⟩ := hrup hout
  obtain ⟨s4, hs4, hr4⟩ := h3.routeUp now hmem
  have h4 := h3.refreshes hr4
  have hk4 := hk3.trans hr4.keeps
  rw [if_neg (not_not.mpr hout), hs4, Option.bind_some]
  split_ifs with hdst hpass
  · exact ⟨_, rfl, hk4.handles h4⟩
  · have hback : (s4.rt ih.daddr).rt_flags = .RTF_UP := by
      have hup' := hpass.1
      rw [rt_lookup] at hup'
      split_ifs at hup'
      · simpa using hup'
      · simp at hup'
    obtain ⟨r', hr', hh⟩ := h4.forwardReply now ih rp
      (by rw [(hr4.refreshed _).flags, setRt_self]; exact hup)
      (by rw [(hr4.refreshed _).seqno, setRt_self]; exact hseq) hback
    exact ⟨r', hr', Handles.after hk4 hh⟩
  · exact ⟨_, rfl, hk4.handles h4⟩

theorem Ok.recvHello (h : s.Ok Told n)
    (hfun : ∀ j d s h h', Told j d s h → Told j d s h' → h = h') {saddr : ℤ} {seqno : ℕ}
    {lifetime : ℚ} (hm : (AomdvMsg.hello saddr seqno lifetime).Ok Told) :
    ∃ r, s.recvHello now saddr seqno lifetime = some r ∧ Handles Told n s r := by
  obtain ⟨htold, hseqno, hhop, hnb⟩ := hm.told _ _ _ _ rfl
  rw [Aomdv.recvHello]
  obtain ⟨s1, hs1, hr1⟩ : ∃ s1 : Aomdv, (if (s.nbhead.any fun nb => nb.1 = saddr) = true then
      { s with nbhead := s.nbhead.map fun nb =>
        if nb.1 = saddr then (nb.1, now + (3 / 2 : ℚ) * 3) else nb }
      else s.nb_insert now saddr) = s1 ∧ Refreshes s s1 := by
    split_ifs
    · exact ⟨_, rfl, rfl, rfl, rfl, rfl, fun _ => .refl _⟩
    · exact ⟨_, rfl, rfl, rfl, rfl, rfl, fun _ => .refl _⟩
  rw [hs1]
  obtain ⟨r, hr, hh⟩ := (h.refreshes hr1).recvReply now hfun
    ⟨saddr, s1.index, 0, true, false, false, 0, 0⟩
    ⟨0, saddr, seqno, saddr, lifetime, 0, 0, s1.index⟩ htold hseqno hhop hnb
  exact ⟨r, hr, Handles.after hr1.keeps hh⟩

/-- What an entry becomes, and what is reported of it. -/
structure EntryHandled (Told : ℤ → ℤ → ℕ → ℕ → Prop) (maxPaths n d : ℤ) (a : AomdvRtEntry)
    (r : AomdvRtEntry × List (ℤ × ℕ)) : Prop where
  ok : r.1.Ok Told maxPaths n d
  quiet : Quiet a r.1
  lost : ∀ x ∈ r.2, AomdvLostSeqno x.2

theorem EntryHandled.same {rt : AomdvRtEntry} {maxPaths : ℤ} (h : rt.Ok Told maxPaths n d) :
    EntryHandled Told maxPaths n d rt (rt, []) := ⟨h, .refl _, List.forall_mem_nil _⟩

theorem path_empty_eq (rt : AomdvRtEntry) (hnum : rt.rt_num_paths_ = rt.rt_path_list.length) :
    rt.path_empty = some (decide (rt.rt_path_list = [])) := by
  rw [path_empty]
  by_cases hnil : rt.rt_path_list = []
  · rw [if_pos hnil, if_pos (by rw [hnum, hnil]; rfl), decide_eq_true hnil]
  · have hpos := List.length_pos_iff.mpr hnil
    rw [if_neg hnil, if_pos (by rw [hnum]; omega), decide_eq_false hnil]

/-- The path through a neighbour is taken out. -/
theorem path_delete_spec {rt : AomdvRtEntry} {maxPaths : ℤ} (h : rt.Ok Told maxPaths n d) {id : ℤ}
    (hp : rt.path_lookup id ≠ none) :
    (rt.path_delete id).rt_num_paths_ = (rt.path_delete id).rt_path_list.length ∧
      (rt.path_delete id).rt_path_list.Sublist rt.rt_path_list := by
  rw [path_delete, if_neg hp]
  refine ⟨?_, List.eraseP_sublist⟩
  obtain ⟨p, hp⟩ := Option.ne_none_iff_exists'.mp hp
  have hmem := List.mem_of_find?_eq_some hp
  have hfound := List.find?_some hp
  have hlen := List.length_eraseP_of_mem (p := fun p => p.nexthop = id) hmem hfound
  have hpos := List.length_pos_of_mem hmem
  dsimp only
  rw [hlen, h.num]
  omega

theorem lost_max {a b : ℕ} (ha : a % 2 = 1) (hb : b % 2 = 1 ∨ b = 0) : max a b % 2 = 1 := by
  rcases max_choice a b with he | he
  · rw [he]
    exact ha
  · have hle := le_max_left a b
    omega

/-- A sequence number that was even becomes odd. -/
theorem loseEntry_spec (rt : AomdvRtEntry) (heven : rt.rt_seqno % 2 = 0) (hlt : rt.rt_seqno < 2 ^ 32)
    (hhigh : rt.rt_highest_seqno_heard % 2 = 1 ∨ rt.rt_highest_seqno_heard = 0) :
    (loseEntry rt).rt_seqno % 2 = 1 ∧ rt.rt_seqno < (loseEntry rt).rt_seqno := by
  have hadd : add32 rt.rt_seqno 1 = rt.rt_seqno + 1 := by
    rw [add32]
    omega
  rw [loseEntry]
  dsimp only
  rw [hadd]
  exact ⟨lost_max (by omega) hhigh, (Nat.lt_succ_self _).trans_le (le_max_left _ _)⟩

/-- An entry that is up goes down under a newer sequence number. -/
theorem down_spec {a rt : AomdvRtEntry} {maxPaths : ℤ} (hmax : 1 ≤ maxPaths)
    (hup : rt.rt_flags = .RTF_UP) (hodd : rt.rt_seqno % 2 = 1)
    (hhigh : rt.rt_highest_seqno_heard % 2 = 1 ∨ rt.rt_highest_seqno_heard = 0)
    (hlt : a.rt_seqno < rt.rt_seqno) : rt.down.Ok Told maxPaths n d ∧ Quiet a rt.down := by
  have hdown : rt.down = { rt with
      rt_flags := .RTF_DOWN
      rt_advertised_hops := aomdvInfinity
      rt_path_list := []
      rt_num_paths_ := 0
      rt_expire := 0 } := by
    rw [down, if_neg (by rw [hup]; decide)]
  rw [hdown]
  exact ok_down rfl rfl rfl (by omega) hodd hhigh hlt

theorem failEntry_spec {rt : AomdvRtEntry} {maxPaths : ℤ} (hmax : 1 ≤ maxPaths)
    (h : rt.Ok Told maxPaths n d) (id : ℤ) :
    ∃ r, failEntry id d rt = some r ∧ EntryHandled Told maxPaths n d rt r := by
  rw [failEntry]
  by_cases hc : rt.rt_flags = .RTF_UP ∧ rt.path_lookup id ≠ none
  swap
  · rw [if_neg hc]
    exact ⟨_, rfl, .same h⟩
  rw [if_pos hc]
  obtain ⟨hup, hp⟩ := hc
  obtain ⟨heven, -, hlt⟩ := h.even hup
  rw [if_neg (by omega)]
  obtain ⟨hnum, hsub⟩ := path_delete_spec h hp
  have hsame : (rt.path_delete id).rt_flags = rt.rt_flags ∧
      (rt.path_delete id).rt_seqno = rt.rt_seqno ∧
      (rt.path_delete id).rt_advertised_hops = rt.rt_advertised_hops ∧
      (rt.path_delete id).rt_highest_seqno_heard = rt.rt_highest_seqno_heard := by
    rw [path_delete, if_neg hp]
    exact ⟨rfl, rfl, rfl, rfl⟩
  dsimp only
  generalize rt.path_delete id = a at hnum hsub hsame
  obtain ⟨hflags, hseqno, hadv, hhigh⟩ := hsame
  rw [path_empty_eq _ hnum, Option.map_some]
  by_cases hnil : a.rt_path_list = []
  · rw [if_pos (decide_eq_true hnil)]
    have hhigh' : a.rt_highest_seqno_heard % 2 = 1 ∨ a.rt_highest_seqno_heard = 0 := by
      rw [hhigh]
      exact h.highest
    obtain ⟨h1, h2⟩ := loseEntry_spec a (by omega) (by omega) hhigh'
    rw [hseqno] at h2
    obtain ⟨h3, h4⟩ := @down_spec Told n d rt { loseEntry a with rt_error := false } maxPaths hmax
      (hflags.trans hup) h1 hhigh' h2
    refine ⟨_, rfl, h3, h4, fun x hx => ?_⟩
    split_ifs at hx
    · rw [List.mem_singleton.mp hx]
      exact .inl h1
    · cases hx
  · rw [if_neg (by simpa using hnil)]
    obtain ⟨h1, h2⟩ := h.sublist hflags hseqno hadv hsub hnum (by rw [hhigh]; exact h.highest) hup
      hnil
    exact ⟨_, rfl, h1, h2, List.forall_mem_nil _⟩

theorem errorEntry_spec {rt : AomdvRtEntry} {maxPaths : ℤ} (hmax : 1 ≤ maxPaths)
    (h : rt.Ok Told maxPaths n d) (saddr : ℤ) {seqno : ℕ} (hlost : AomdvLostSeqno seqno) :
    ∃ r, errorEntry saddr seqno d rt = some r ∧ EntryHandled Told maxPaths n d rt r := by
  rw [errorEntry]
  by_cases hc : rt.rt_flags = .RTF_UP ∧ rt.path_lookup saddr ≠ none ∧ rt.rt_seqno ≤ seqno
  swap
  · rw [if_neg hc]
    exact ⟨_, rfl, .same h⟩
  rw [if_pos hc]
  obtain ⟨hup, hp, hle⟩ := hc
  obtain ⟨heven, htwo, hlt⟩ := h.even hup
  rw [if_neg (by omega)]
  obtain ⟨hnum, hsub⟩ := path_delete_spec h hp
  have hsame : (rt.path_delete saddr).rt_flags = rt.rt_flags ∧
      (rt.path_delete saddr).rt_seqno = rt.rt_seqno ∧
      (rt.path_delete saddr).rt_advertised_hops = rt.rt_advertised_hops ∧
      (rt.path_delete saddr).rt_highest_seqno_heard = rt.rt_highest_seqno_heard := by
    rw [path_delete, if_neg hp]
    exact ⟨rfl, rfl, rfl, rfl⟩
  dsimp only
  generalize rt.path_delete saddr = a at hnum hsub hsame
  obtain ⟨hflags, hseqno, hadv, hhigh⟩ := hsame
  -- the number that was heard is odd, and newer than the even one of the entry
  have hodd : seqno % 2 = 1 := by
    rcases hlost with hodd | hzero
    · exact hodd
    · omega
  have hmax' : max a.rt_highest_seqno_heard seqno % 2 = 1 := by
    rw [hhigh, max_comm]
    exact lost_max hodd h.highest
  have hnewer : rt.rt_seqno < max a.rt_highest_seqno_heard seqno :=
    (show rt.rt_seqno < seqno by omega).trans_le (le_max_right _ _)
  rw [path_empty_eq { a with
    rt_highest_seqno_heard := max a.rt_highest_seqno_heard seqno } hnum, Option.map_some]
  dsimp only
  by_cases hnil : a.rt_path_list = []
  · rw [if_pos (decide_eq_true hnil)]
    obtain ⟨h3, h4⟩ := @down_spec Told n d rt { a with
      rt_highest_seqno_heard := max a.rt_highest_seqno_heard seqno
      rt_seqno := max a.rt_highest_seqno_heard seqno } maxPaths hmax (hflags.trans hup) hmax'
      (.inl hmax') hnewer
    have hseq : ∀ b : AomdvRtEntry, b.down.rt_seqno = b.rt_seqno := fun b => by
      rw [down]
      split_ifs <;> rfl
    refine ⟨_, rfl, h3.refresh ⟨rfl, rfl, rfl, rfl, rfl, rfl⟩,
      h4.trans (Refreshed.quiet ⟨rfl, rfl, rfl, rfl, rfl, rfl⟩), fun x hx => ?_⟩
    split_ifs at hx
    · rw [List.mem_singleton.mp hx, hseq]
      exact .inl hmax'
    · cases hx
  · rw [if_neg (by simpa using hnil)]
    obtain ⟨h1, h2⟩ := h.sublist (b := { a with
      rt_highest_seqno_heard := max a.rt_highest_seqno_heard seqno }) hflags hseqno hadv hsub hnum
      (.inl hmax') hup hnil
    exact ⟨_, rfl, h1, h2, List.forall_mem_nil _⟩

/-- What several entries become. -/
structure EntriesHandled (Told : ℤ → ℤ → ℕ → ℕ → Prop) (n : ℤ) (s : Aomdv)
    (r : Aomdv × List (ℤ × ℕ)) : Prop where
  ok : r.1.Ok Told n
  keeps : Keeps s r.1
  lost : ∀ x ∈ r.2, AomdvLostSeqno x.2

theorem EntryHandled.cons (h : s.Ok Told n) (hd : d ∈ s.rthead)
    {r : AomdvRtEntry × List (ℤ × ℕ)}
    (hr : EntryHandled Told s.cap n d (s.rt d) r) {q : Aomdv × List (ℤ × ℕ)}
    (hq : (s.setRt d r.1).Ok Told n → EntriesHandled Told n (s.setRt d r.1) q) :
    EntriesHandled Told n s (q.1, r.2 ++ q.2) := by
  obtain ⟨h1, h2, h3⟩ := hq (h.setRt hd hr.ok)
  exact ⟨h1, (keeps_setRt s hr.quiet).trans h2, fun x hx =>
    (List.mem_append.mp hx).elim (hr.lost x) (h3 x)⟩

theorem Ok.failEntries (h : s.Ok Told n) (id : ℤ) (ds : List ℤ) (hds : ∀ d ∈ ds, d ∈ s.rthead) :
    ∃ r, forEach (failEntry id) s ds = some r ∧ EntriesHandled Told n s r := by
  induction ds generalizing s with
  | nil => exact ⟨_, rfl, h, (Refreshes.refl s).keeps, List.forall_mem_nil _⟩
  | cons d ds ih =>
    have hd := hds d List.mem_cons_self
    obtain ⟨r, hr, hh⟩ := failEntry_spec s.one_le_cap (h.entries d) id
    obtain ⟨q, hq, hqh⟩ := ih (h.setRt hd hh.ok) fun x hx => hds x (List.mem_cons_of_mem d hx)
    rw [forEach, hr, Option.bind_some, hq]
    exact ⟨_, rfl, hh.cons h hd fun _ => hqh⟩

theorem Ok.errorLoop (h : s.Ok Told n) (saddr : ℤ) {ds : List (ℤ × ℕ)}
    (hds : ∀ x ∈ ds, AomdvLostSeqno x.2) :
    ∃ r, errorLoop saddr s ds = some r ∧ EntriesHandled Told n s r := by
  induction ds generalizing s with
  | nil => exact ⟨_, rfl, h, (Refreshes.refl s).keeps, List.forall_mem_nil _⟩
  | cons x ds ih =>
    obtain ⟨d, seqno⟩ := x
    have hrest : ∀ x ∈ ds, AomdvLostSeqno x.2 := fun x hx => hds x (List.mem_cons_of_mem _ hx)
    rw [Aomdv.errorLoop]
    by_cases hd : d ∈ s.rthead
    · rw [rt_lookup, if_pos hd, if_neg (Option.some_ne_none _)]
      obtain ⟨r, hr, hh⟩ := errorEntry_spec s.one_le_cap (h.entries d) saddr
        (hds (d, seqno) List.mem_cons_self)
      obtain ⟨q, hq, hqh⟩ := ih (h.setRt hd hh.ok) hrest
      rw [hr, Option.bind_some, hq]
      exact ⟨_, rfl, hh.cons h hd fun _ => hqh⟩
    · rw [rt_lookup, if_neg hd, if_pos rfl]
      exact ih h hrest

theorem sendError_from {l : List (ℤ × ℕ)} (hl : ∀ x ∈ l, AomdvLostSeqno x.2) :
    ∀ m ∈ s.sendError l, From n t m := by
  intro m hm
  rw [sendError] at hm
  split_ifs at hm
  · cases hm
  · obtain rfl := List.mem_singleton.mp hm
    refine ⟨fun j d k c he => ?_, fun j l' he => ?_, fun ih rq he => ?_⟩
    · cases he
    · obtain ⟨-, rfl⟩ := AomdvMsg.error.inj he
      exact hl
    · cases he

theorem Ok.recvError (h : s.Ok Told n) {saddr : ℤ} {l : List (ℤ × ℕ)}
    (hm : (AomdvMsg.error saddr l).Ok Told) :
    ∃ r, s.recvError saddr l = some r ∧ Handles Told n s r := by
  obtain ⟨r, hr, hok, hk, hlost⟩ := h.errorLoop saddr (hm.lost saddr l rfl)
  rw [Aomdv.recvError, hr]
  exact ⟨_, rfl, hok, fun d => (hk.quiet d).evolves, sendError_from hlost⟩

variable (now) in
theorem Ok.sendRequest (h : s.Ok Told n) :
    ∃ r, s.sendRequest now d = some r ∧ Handles Told n s r := by
  have hnothing : Handles Told n s (s, []) := (Refreshes.refl s).keeps.handles h
  have hsoft : ∀ cnt timeout, Refreshes s (s.setRt d { s.rt d with
      rt_req_timeout := timeout, rt_req_cnt := cnt }) := fun cnt timeout =>
    refreshes_setRt s ⟨rfl, rfl, rfl, rfl, rfl, rfl⟩
  have hadd := add32_even (a := s.seqno) (b := 2) (by have := h.seqno; omega)
  rw [Aomdv.sendRequest]
  dsimp only
  split_ifs with hup htimeout hcnt hodd
  · exact ⟨_, rfl, hnothing⟩
  · exact ⟨_, rfl, hnothing⟩
  · have hr := (hsoft 0 (now + 1)).trans (dequeAll_spec _ now d).1
    exact ⟨_, rfl, hr.keeps.handles (h.refreshes hr)⟩
  · exact absurd hadd.1 hodd
  · have hr : Refreshes s (s.setRt d { s.rt d with
        rt_req_last_ttl := (requestTtl (s.rt d)).1
        rt_req_cnt := (requestTtl (s.rt d)).2
        rt_req_timeout := requestTimeout now (requestTtl (s.rt d)).1 (requestTtl (s.rt d)).2
        rt_expire := 0 }) := refreshes_setRt s ⟨rfl, rfl, rfl, rfl, rfl, rfl⟩
    have hnew := (h.refreshes hr).withSeqno hadd
    refine ⟨_, rfl, Handles.cons ⟨?_, fun x => (hr.refreshed x).quiet.evolves,
      List.forall_mem_nil _⟩ ⟨fun j x k c he => ?_, fun j l he => ?_, fun ih rq he => ?_⟩⟩
    · exact ⟨hnew.index, hnew.address, hnew.seqno, hnew.entries, hnew.head,
        hnew.absent⟩
    · rw [AomdvMsg.announces] at he
      obtain ⟨rfl, rfl, rfl, rfl⟩ : s.index = j ∧ s.index = x ∧ add32 s.seqno 2 = k ∧ 0 = c := by
        simpa using he
      rw [h.index]
      exact ⟨rfl, h.address, .inl ⟨rfl, rfl, rfl⟩⟩
    · cases he
    · obtain ⟨rfl, -⟩ := AomdvMsg.request.inj he
      rfl

theorem enque_refreshes (s : Aomdv) (now : ℚ) (p : AomdvIp) : Refreshes s (s.enque now p) :=
  ⟨rfl, rfl, rfl, rfl, fun _ => .refl _⟩

theorem Ok.rt_resolve (h : s.Ok Told n) {ih : AomdvIp} (hdaddr : ih.daddr ≠ aomdvBroadcast) :
    ∃ r, s.rt_resolve now ih = some r ∧ Handles Told n s r := by
  obtain ⟨h1, hk, hmem⟩ := h.rt_ensure hdaddr
  rw [Aomdv.rt_resolve]
  generalize s.rt_ensure ih.daddr = s1 at h1 hk hmem
  cases hf : (s1.rt ih.daddr).rt_flags with
  | RTF_UP =>
    obtain ⟨r, hr, hrr⟩ := h1.forward now hf hdaddr
    dsimp only
    rw [hr]
    exact ⟨_, rfl, Handles.after hk (hrr.keeps.handles (h1.refreshes hrr))⟩
  | RTF_IN_REPAIR =>
    have hdown := ((h1.entries ih.daddr).odd (by rw [hf]; decide)).1
    rw [hf] at hdown
    cases hdown
  | RTF_DOWN =>
    dsimp only
    split_ifs
    · have he := enque_refreshes s1 now ih
      obtain ⟨r, hr, hh⟩ := (h1.refreshes he).sendRequest now (d := ih.daddr)
      exact ⟨r, hr, Handles.after (hk.trans he.keeps) hh⟩
    · refine ⟨_, rfl, Handles.after hk (Handles.cons ((Refreshes.refl s1).keeps.handles h1)
        ⟨fun j x k c he => ?_, fun j l he => ?_, fun ih rq he => ?_⟩)⟩
      · cases he
      · obtain ⟨-, rfl⟩ := AomdvMsg.error.inj he
        intro x hx
        rw [List.mem_singleton.mp hx]
        exact ((h1.entries ih.daddr).odd (by rw [hf]; decide)).2
      · cases he

theorem Ok.recvData (h : s.Ok Told n) (ih : AomdvIp) :
    ∃ r, s.recvData now ih = some r ∧ Handles Told n s r := by
  have hnothing : Handles Told n s (s, []) := (Refreshes.refl s).keeps.handles h
  have hresolve : ∀ ih : AomdvIp, ∃ r, (if ih.daddr ≠ aomdvBroadcast then s.rt_resolve now ih
      else (s.forward now none ih).map fun r => (r.1, [])) = some r ∧ Handles Told n s r := by
    intro ih
    by_cases hb : ih.daddr ≠ aomdvBroadcast
    · rw [if_pos hb]
      exact h.rt_resolve hb
    · rw [if_neg hb, Aomdv.forward, if_neg hb]
      split_ifs
      · exact ⟨_, rfl, hnothing⟩
      · exact ⟨_, rfl, hnothing⟩
      · exact ⟨_, rfl, hnothing⟩
  rw [Aomdv.recvData]
  dsimp only
  by_cases h1 : ih.saddr = s.index ∧ ih.num_forwards = 0
  · rw [if_pos h1]
    exact hresolve { ih with
      salvage_count := 0
      ttl := if ih.daddr ≠ aomdvBroadcast then networkDiameter else ih.ttl }
  rw [if_neg h1]
  by_cases h2 : ih.saddr = s.index
  · rw [if_pos h2]
    exact ⟨_, rfl, hnothing⟩
  rw [if_neg h2]
  by_cases h3 : ih.ttl - 1 = 0
  · rw [if_pos h3]
    exact ⟨_, rfl, hnothing⟩
  · rw [if_neg h3]
    exact hresolve { ih with ttl := ih.ttl - 1 }

theorem path_purge_num {rt : AomdvRtEntry} {maxPaths : ℤ} (h : rt.Ok Told maxPaths n d) (now : ℚ) :
    (rt.path_purge now).rt_num_paths_ = (rt.path_purge now).rt_path_list.length := by
  have hlen := List.length_eq_length_filter_add (l := rt.rt_path_list)
    fun p => decide (p.expire < now)
  rw [path_purge]
  dsimp only
  rw [h.num]
  have hnot : (rt.rt_path_list.filter fun p => decide ¬ p.expire < now) =
      rt.rt_path_list.filter fun p => !decide (p.expire < now) :=
    List.filter_congr fun _ _ => decide_not
  rw [hnot]
  omega

theorem Ok.rt_purge (h : s.Ok Told n) (hd : d ∈ s.rthead) :
    ∃ r, s.rt_purge now d = some r ∧ Handles Told n s r := by
  have hnothing : Handles Told n s (s, []) := (Refreshes.refl s).keeps.handles h
  have hdeq := dequeAll_spec s now d
  rw [Aomdv.rt_purge]
  dsimp only
  by_cases hc : (s.rt d).rt_flags = .RTF_UP ∧ (s.rt d).rt_expire < now
  · rw [if_pos hc]
    obtain ⟨hup, -⟩ := hc
    have hok := h.entries d
    obtain ⟨heven, htwo, hlt⟩ := hok.even hup
    have hnum := path_purge_num hok now
    rw [path_empty_eq _ hnum, Option.map_some]
    by_cases hnil : ((s.rt d).path_purge now).rt_path_list = []
    · rw [if_pos (decide_eq_true hnil)]
      obtain ⟨h1, h2⟩ := loseEntry_spec ((s.rt d).path_purge now) heven hlt hok.highest
      rw [if_neg (by omega)]
      obtain ⟨h3, h4⟩ := @down_spec Told n d (s.rt d) (loseEntry ((s.rt d).path_purge now)) _
        s.one_le_cap hup h1 hok.highest h2
      exact ⟨_, rfl, (hdeq.1.keeps.trans (keeps_setRt _ h4)).handles
        ((h.refreshes hdeq.1).setRt hd h3)⟩
    · rw [if_neg (by simpa using hnil)]
      obtain ⟨h1, h2⟩ := hok.sublist (b := (s.rt d).path_purge now) rfl rfl rfl
        List.filter_sublist hnum hok.highest hup hnil
      exact ⟨_, rfl, (keeps_setRt s h2).handles (h.setRt hd h1)⟩
  rw [if_neg hc]
  split_ifs
  · obtain ⟨t, ht, hrt⟩ := (h.refreshes hdeq.1).forwardAll now (d := d) hd hdeq.2
    rw [ht]
    have hr := hdeq.1.trans hrt
    exact ⟨_, rfl, hr.keeps.handles (h.refreshes hr)⟩
  · exact h.sendRequest now
  · exact ⟨_, rfl, hnothing⟩

variable (now) in
theorem Ok.salvage (h : s.Ok Told n) (ps : List AomdvIp) :
    ∃ t, salvage now s ps = some t ∧ Refreshes s t := by
  induction ps generalizing s with
  | nil => exact ⟨s, rfl, .refl s⟩
  | cons p ps ih =>
    rw [Aomdv.salvage]
    by_cases hc : p.data ∧ (s.rt_lookup p.daddr).any (·.rt_flags = .RTF_UP) ∧ p.salvage_count < 10
    · rw [if_pos hc]
      obtain ⟨hmem, hup⟩ : p.daddr ∈ s.rthead ∧ (s.rt p.daddr).rt_flags = .RTF_UP := by
        have hup := hc.2.1
        rw [rt_lookup] at hup
        split_ifs at hup with hmem
        · exact ⟨hmem, by simpa using hup⟩
        · simp at hup
      obtain ⟨r, hr, hrr⟩ := h.forward now hup (i := { p with salvage_count := p.salvage_count + 1 })
        (fun he => h.head (he ▸ hmem))
      obtain ⟨t, ht, hrt⟩ := ih (h.refreshes hrr)
      rw [hr, Option.bind_some]
      exact ⟨t, ht, hrr.trans hrt⟩
    · rw [if_neg hc]
      exact ih h

/-- A neighbour that is lost. -/
theorem Ok.nb_purge (h : s.Ok Told n) (id : ℤ) (filtered : List AomdvIp) :
    ∃ r, s.nb_purge now id filtered = some r ∧
      ∀ out, r.2 = some out → Handles Told n s (r.1, out) := by
  have hadd := add32_even (a := s.seqno) (b := 2) (by have := h.seqno; omega)
  rw [Aomdv.nb_purge]
  split_ifs
  · dsimp only
    rw [if_neg (by omega)]
    obtain ⟨u, hu⟩ : ∃ u : Aomdv, { s with
      seqno := add32 s.seqno 2
      nbhead := s.nbhead.eraseP fun nb => nb.1 = id } = u := ⟨_, rfl⟩
    have hok : u.Ok Told n := by
      rw [← hu]
      exact ⟨h.index, h.address, hadd, h.entries, h.head, h.absent⟩
    have hrt : u.rt = s.rt ∧ u.rthead = s.rthead := by
      rw [← hu]
      exact ⟨rfl, rfl⟩
    obtain ⟨r, hr, hrok, hrk, hlost⟩ := hok.failEntries id s.rthead
      (fun d hd => hrt.2 ▸ hd)
    rw [hu, hr, Option.bind_some]
    split_ifs
    · exact ⟨_, rfl, fun out he => by cases he⟩
    · obtain ⟨t, ht, htr⟩ := hrok.salvage now filtered
      rw [ht]
      refine ⟨_, rfl, fun out he => ?_⟩
      obtain rfl := Option.some.inj he
      refine ⟨hrok.refreshes htr, fun d => ?_, sendError_from hlost⟩
      have hq := (hrk.quiet d).trans (htr.refreshed d).quiet
      rw [hrt.1] at hq
      exact hq.evolves
  · refine ⟨_, rfl, fun out he => ?_⟩
    obtain rfl := Option.some.inj he
    exact (Refreshes.refl s).keeps.handles h

theorem Ok.sendHello (h : s.Ok Told n) : Handles Told n s (s, s.sendHello) := by
  refine ⟨h, fun d => (Quiet.refl _).evolves, fun m hm => ?_⟩
  rw [Aomdv.sendHello] at hm
  split_ifs at hm
  · obtain rfl := List.mem_singleton.mp hm
    refine h.from_self ?_ fun _ _ he => ?_
    · rw [AomdvMsg.announces, h.index]
    · cases he
  · cases hm

end Aomdv

end Ns2
