import Ns2.Aodv.AodvLoops

/-! The assertions of an AODV node: they hold as long as no route that is still valid is repaired
locally, and no route of the largest hop count is taken. -/

namespace Ns2

namespace AodvAgent

/-- A route has a hop count if and only if it is up, and then its number is even. -/
def Core.Sound (a : Core) : Prop :=
  (a.hops = infinity ↔ a.flags ≠ .RTF_UP) ∧ (a.flags = .RTF_UP → a.seqno % 2 = 0)

/-- The cause leaves a sound route sound. -/
def Cause.Fits (s : AodvAgent) : Cause → Prop
  | .heard _ d k h _ => (s.rt d).core.Better k h → k % 2 = 0 ∧ h ≠ infinity
  | .repair d => (s.rt d).rt_hops = infinity
  | _ => True

structure Steady (s : AodvAgent) : Prop where
  sound : ∀ d, (s.rt d).core.Sound
  own : Own s.seqno
  head : broadcast ∉ s.rthead

variable {s t : AodvAgent} {now perHop : ℚ} {d : ℤ} {c : Cause} {rt : RtEntry}

theorem Core.Sound.hops {a : Core} (h : a.Sound) (hup : a.flags = .RTF_UP) : a.hops ≠ infinity :=
  fun he => h.1.mp he hup

theorem Core.Sound.up {a : Core} (h : a.Sound) (hhops : a.hops ≠ infinity) : a.flags = .RTF_UP :=
  by_contra fun hf => hhops (h.1.mpr hf)

theorem sound_down (k : ℕ) (nexthop : ℤ) : Core.Sound ⟨k, infinity, .RTF_DOWN, nexthop⟩ :=
  ⟨iff_of_true rfl fun h => (by cases h), fun h => by cases h⟩

theorem Move.sound_of_downs {a b : Core} (h : Move c d a b) (hc : c.Downs) : b.Sound := by
  cases h with
  | lose => exact sound_down ..
  | fail => exact sound_down ..
  | learn => exact hc.elim
  | expire => exact hc.elim
  | repair => exact hc.elim
  | down => exact hc.elim

theorem Changed.sound (h : Changed c s t) (hc : c.Fits s) (hs : ∀ d, (s.rt d).core.Sound) (d : ℤ) :
    (t.rt d).core.Sound := by
  rcases h.moves d with hsame | hmove
  · rw [hsame]
    exact hs d
  · generalize (t.rt d).core = b at hmove
    cases hmove with
    | learn hbetter =>
      obtain ⟨heven, hh⟩ := hc hbetter
      exact ⟨iff_of_false hh fun h => h rfl, fun _ => heven⟩
    | repair => exact ⟨iff_of_true hc fun h => (by cases h), fun h => by cases h⟩
    | lose => exact sound_down ..
    | fail => exact sound_down ..
    | expire => exact sound_down ..
    | down => exact sound_down ..

theorem forward_total (now : ℚ) (ttl : ℤ) {daddr : ℤ} (hup : (s.rt d).rt_flags = .RTF_UP)
    (hd : daddr ≠ broadcast) : ∃ r, s.forward now d ttl daddr = some r := by
  rw [forward]
  split_ifs with h1 h2
  · exact ⟨_, rfl⟩
  · exact absurd h2 (not_or.mpr ⟨not_not.mpr hup, hd⟩)
  · exact ⟨_, rfl⟩

theorem forwardAll_total (now : ℚ) {ps : List Ip} (hup : (s.rt d).rt_flags = .RTF_UP)
    (hps : ∀ p ∈ ps, p.daddr ≠ broadcast) : ∃ t, forwardAll now d s ps = some t := by
  induction ps generalizing s with
  | nil => exact ⟨s, rfl⟩
  | cons p ps ih =>
    obtain ⟨hp, hps⟩ := List.forall_mem_cons.mp hps
    obtain ⟨r, hr⟩ := forward_total now p.ttl hup hp
    have hup' : (r.1.rt d).rt_flags = .RTF_UP :=
      (congrArg Core.flags ((forward_quiet hr).1.core d)).trans hup
    rw [forwardAll, hr]
    exact ih hup' hps

theorem serve_total (now : ℚ) (hup : (s.rt d).rt_flags = .RTF_UP)
    (hhops : (s.rt d).rt_hops ≠ infinity) (hd : d ≠ broadcast) : ∃ t, s.serve now d = some t := by
  rw [serve]
  split_ifs with h
  · exact absurd h.2 hhops
  · refine forwardAll_total now hup fun p hp => ?_
    obtain ⟨x, hx, rfl⟩ := List.mem_map.mp hp
    have hdst : x.1.daddr = d := of_decide_eq_true (List.mem_filter.mp hx).2
    rw [hdst]
    exact hd

theorem plus_two (h : Own s.seqno) : ¬ plus s.seqno 2 % 2 ≠ 0 :=
  not_not.mpr (even_plus (by have := h.1; omega)).1

theorem sendRequest_total (now perHop : ℚ) (h : Own s.seqno)
    (hup : (s.rt d).rt_flags = .RTF_UP → (s.rt d).rt_hops ≠ infinity) :
    ∃ r, s.sendRequest now perHop d = some r := by
  rw [sendRequest]
  dsimp only
  split_ifs with h1 h2 h3 h4 h5
  · exact absurd h2 (hup h1)
  · exact ⟨_, rfl⟩
  · exact ⟨_, rfl⟩
  · exact ⟨_, rfl⟩
  · exact absurd h5 (plus_two h)
  · exact ⟨_, rfl⟩

theorem failEntry_total (id : ℤ) (h : rt.core.Sound) : ∃ r, failEntry id d rt = some r := by
  rw [failEntry]
  split_ifs with h1 h2
  · have hup : rt.rt_flags = .RTF_UP := h.up h1.1
    exact absurd h2 (not_or.mpr ⟨not_not.mpr hup, not_not.mpr (h.2 hup)⟩)
  · exact ⟨_, rfl⟩
  · exact ⟨_, rfl⟩

theorem errorEntry_total (saddr : ℤ) (k : ℕ) (h : rt.core.Sound) :
    ∃ r, errorEntry saddr k d rt = some r := by
  rw [errorEntry]
  split_ifs with h1 h2
  · have hup : rt.rt_flags = .RTF_UP := h.up h1.1
    exact absurd h2 (not_or.mpr ⟨not_not.mpr hup, not_not.mpr (h.2 hup)⟩)
  · exact ⟨_, rfl⟩
  · exact ⟨_, rfl⟩

theorem sound_setRt (hs : ∀ d, (s.rt d).core.Sound) (h : rt.core.Sound) (d x : ℤ) :
    ((s.setRt d rt).rt x).core.Sound := by
  by_cases hx : x = d
  · rw [hx, setRt_self]
    exact h
  · rw [setRt_other s rt hx]
    exact hs x

theorem failLoop_total (id : ℤ) (ds : List ℤ) (hs : ∀ d, (s.rt d).core.Sound) :
    ∃ r, failLoop id s ds = some r := by
  induction ds generalizing s with
  | nil => exact ⟨_, rfl⟩
  | cons d ds ih =>
    obtain ⟨e, he⟩ := failEntry_total id (d := d) (hs d)
    have hrt : e.1.core.Sound := (failEntry_spec he).1.elim (fun h => h ▸ hs d) fun h =>
      h.sound_of_downs trivial
    obtain ⟨r, hr⟩ := ih (sound_setRt hs hrt d)
    rw [failLoop, he, Option.bind_some, hr]
    exact ⟨_, rfl⟩

theorem errorLoop_total (saddr : ℤ) (ds : List (ℤ × ℕ)) (hs : ∀ d, (s.rt d).core.Sound) :
    ∃ r, errorLoop saddr s ds = some r := by
  induction ds generalizing s with
  | nil => exact ⟨_, rfl⟩
  | cons x ds ih =>
    obtain ⟨d, k⟩ := x
    rw [errorLoop]
    split_ifs
    · obtain ⟨e, he⟩ := errorEntry_total saddr k (d := d) (hs d)
      have hrt : e.1.core.Sound := (errorEntry_spec (List.mem_singleton_self (d, k)) he).1.elim
        (fun h => h ▸ hs d) fun h => h.sound_of_downs trivial
      obtain ⟨r, hr⟩ := ih (sound_setRt hs hrt d)
      rw [he, Option.bind_some, hr]
      exact ⟨_, rfl⟩
    · exact ih hs

theorem Steady.nb_delete_total (h : s.Steady) (id : ℤ) : ∃ r, s.nb_delete id = some r := by
  rw [nb_delete, if_neg (plus_two h.own)]
  obtain ⟨r, hr⟩ := failLoop_total id s.rthead (s := { s with
    seqno := plus s.seqno 2, nbhead := s.nbhead.eraseP fun nb => nb.1 = id }) h.sound
  exact ⟨_, by rw [handle_link_failure, hr]; rfl⟩

theorem Steady.nb_purge_total (h : s.Steady) (now : ℚ) (id : ℤ) :
    ∃ r, s.nb_purge now id = some r := by
  rw [nb_purge]
  split_ifs
  · exact h.nb_delete_total id
  · exact ⟨_, rfl⟩

theorem Steady.recvHello_total (h : s.Steady) (now : ℚ) (id : ℤ) :
    ∃ r, s.recvHello now id = some r := by
  rw [recvHello]
  split_ifs with h1 h2
  · exact ⟨_, rfl⟩
  · exact absurd h2 (plus_two h.own)
  · exact ⟨_, rfl⟩

theorem Steady.recvError_total (h : s.Steady) (saddr : ℤ) (l : List (ℤ × ℕ)) :
    ∃ r, s.recvError saddr l = some r := by
  obtain ⟨r, hr⟩ := errorLoop_total saddr l h.sound
  exact ⟨_, by rw [recvError, hr]; rfl⟩

theorem Steady.rt_ll_failed_total (h : s.Steady) (now perHop : ℚ) (id : ℤ) (ih : Ip) :
    ∃ r, s.rt_ll_failed now perHop id ih = some r := by
  rw [rt_ll_failed]
  split_ifs
  · exact ⟨_, rfl⟩
  · refine sendRequest_total now perHop h.own fun hup => ?_
    rw [setRt_self] at hup
    cases hup
  · exact h.nb_delete_total id

theorem Steady.rt_resolve_total (h : s.Steady) (hs : s.Ok) (now perHop : ℚ) (ih : Ip)
    (hb : ih.daddr ≠ broadcast) : ∃ r, s.rt_resolve now perHop ih = some r := by
  rw [rt_resolve]
  obtain ⟨-, -, -, hseqno, -, hcore⟩ := hs.ensure ih.daddr
  generalize s.rt_ensure ih.daddr = u at *
  have hsound : ∀ d, (u.rt d).core.Sound := fun d => hcore d ▸ h.sound d
  split_ifs with h1 h2
  · exact absurd h2 ((hsound _).hops h1)
  · obtain ⟨q, hq⟩ := forward_total now ih.ttl h1 hb
    rw [hq]
    exact ⟨_, rfl⟩
  · exact sendRequest_total now perHop (hseqno.symm ▸ h.own) fun hup => (hsound _).hops hup
  · exact ⟨_, rfl⟩
  · exact ⟨_, rfl⟩

theorem Steady.recvData_total (h : s.Steady) (hs : s.Ok) (now perHop : ℚ) (ih : Ip) :
    ∃ r, s.recvData now perHop ih = some r := by
  rw [recvData]
  split_ifs with h1
  · exact ⟨_, rfl⟩
  · exact h.rt_resolve_total hs now perHop { ih with ttl := NETWORK_DIAMETER } h1
  · exact ⟨_, rfl⟩
  · exact ⟨_, rfl⟩
  · exact h.rt_resolve_total hs now perHop { ih with ttl := ih.ttl - 1 } h1

theorem Steady.rt_purge_total (h : s.Steady) (now perHop : ℚ) (hd : d ∈ s.rthead) :
    ∃ r, s.rt_purge now perHop d = some r := by
  rw [rt_purge]
  dsimp only
  split_ifs with h1 h2 h3 h4
  · exact absurd h2 ((h.sound d).hops h1)
  · have heven : (s.rt d).rt_seqno % 2 = 0 := (h.sound d).2 h1
    rw [plus] at h4
    omega
  · exact ⟨_, rfl⟩
  · obtain ⟨t, ht⟩ := serve_total now h1 h2 fun hb => h.head (hb ▸ hd)
    rw [ht]
    exact ⟨_, rfl⟩
  · exact sendRequest_total now perHop h.own fun hup => (h.sound d).hops hup
  · exact ⟨_, rfl⟩

theorem recvRequest_total (hs : s.Ok) (now : ℚ) (saddr ttl : ℤ) {rq : Request}
    (hd : rq.rq_src ≠ broadcast) (hhops : ¬ s.Ignores rq →
      (s.rt rq.rq_src).core.Better rq.rq_src_seqno rq.rq_hop_count → rq.rq_hop_count ≠ infinity) :
    ∃ r, s.recvRequest now saddr ttl rq = some r := by
  by_cases hi : s.Ignores rq
  · exact ⟨_, recvRequest_ignored now saddr ttl hi⟩
  obtain ⟨h1, h2⟩ := not_or.mp hi
  rw [recvRequest, if_neg h1, if_neg h2]
  have hseen : Quiet s (s.id_insert now rq.rq_src rq.rq_bcast_id) := ⟨rfl, rfl, rfl, fun _ => rfl⟩
  obtain ⟨-, -, -, -, -, hcore⟩ := (hseen.ok hs).ensure rq.rq_src
  generalize (s.id_insert now rq.rq_src rq.rq_bcast_id).rt_ensure rq.rq_src = u at *
  dsimp only
  split_ifs with hb
  · have hself : ((u.setRt rq.rq_src (reverseRoute now saddr rq (u.rt rq.rq_src))).rt
        rq.rq_src).core = ⟨rq.rq_src_seqno, rq.rq_hop_count, .RTF_UP, saddr⟩ := by
      rw [setRt_self, reverseRoute_core, if_pos hb]
    have hb' : (s.rt rq.rq_src).core.Better rq.rq_src_seqno rq.rq_hop_count := hcore rq.rq_src ▸ hb
    obtain ⟨t, ht⟩ := serve_total now (congrArg Core.flags hself)
      ((congrArg Core.hops hself).trans_ne (hhops hi hb')) hd
    rw [ht]
    exact ⟨_, rfl⟩
  · exact ⟨_, rfl⟩

theorem forwardReply_total (now : ℚ) {daddr ttl : ℤ} (rp : Reply) (hb : broadcast ∉ s.rthead)
    (hs : (s.rt daddr).core.Sound) : ∃ r, s.forwardReply now daddr ttl rp = some r := by
  rw [forwardReply]
  split_ifs with h1 h2
  · exact absurd (hs.up h1.2) h2
  · obtain ⟨q, hq⟩ := forward_total now ttl (not_not.mp h2) fun hd => hb (hd ▸ h1.1)
    rw [hq]
    exact ⟨_, rfl⟩
  · exact ⟨_, rfl⟩

theorem Steady.recvReply_total (h : s.Steady) (hs : s.Ok) (now : ℚ) (daddr ttl : ℤ) {rp : Reply}
    (hd : rp.rp_dst ≠ broadcast) (hhops : (s.rt rp.rp_dst).core.Better rp.rp_dst_seqno
      rp.rp_hop_count → rp.rp_dst_seqno % 2 = 0 ∧ rp.rp_hop_count ≠ infinity) :
    ∃ r, s.recvReply now daddr ttl rp = some r := by
  rw [recvReply]
  obtain ⟨-, -, -, -, hhead, hcore⟩ := hs.ensure rp.rp_dst
  generalize s.rt_ensure rp.rp_dst = u at *
  by_cases hb : (u.rt rp.rp_dst).Better rp.rp_dst_seqno rp.rp_hop_count
  · obtain ⟨heven, hne⟩ := hhops (hcore rp.rp_dst ▸ hb)
    rw [if_pos hb]
    dsimp only
    obtain ⟨rt, hrt⟩ : ∃ rt : RtEntry, rt = ((u.rt rp.rp_dst).rt_update rp.rp_dst_seqno
        rp.rp_hop_count rp.rp_src (now + rp.rp_lifetime)).resetRequests rp.rp_hop_count := ⟨_, rfl⟩
    rw [← hrt]
    have hrt' : rt.core = ⟨rp.rp_dst_seqno, rp.rp_hop_count, .RTF_UP, rp.rp_src⟩ := by
      rw [hrt]
      rfl
    rw [if_pos (show rt.rt_hops ≠ infinity from (congrArg Core.hops hrt').trans_ne hne)]
    have hsound : ∀ d, ((u.setRt rp.rp_dst rt).rt d).core.Sound :=
      sound_setRt (fun d => hcore d ▸ h.sound d)
        (hrt' ▸ ⟨iff_of_false hne fun h => h rfl, fun _ => heven⟩) rp.rp_dst
    have hup : ((u.setRt rp.rp_dst rt).rt rp.rp_dst).rt_flags = .RTF_UP := by
      rw [setRt_self]
      exact congrArg Core.flags hrt'
    obtain ⟨t, ht⟩ := serve_total now hup ((hsound rp.rp_dst).hops hup) hd
    have hq := serve_quiet ht
    rw [ht, Option.bind_some]
    split_ifs
    · exact ⟨_, rfl⟩
    · refine forwardReply_total now rp (fun hmem => ?_) (hq.core daddr ▸ hsound daddr)
      rw [hq.head] at hmem
      exact ((hhead broadcast).mp hmem).elim hd.symm h.head
  · rw [if_neg hb]
    exact ⟨_, rfl⟩

end AodvAgent

namespace AodvNetwork

open AodvAgent

/-- A route that is heard is not as long as can be. -/
def Short (a : AodvAgent) : Msg → Prop
  | .request _ _ rq => ¬ a.Ignores rq →
      (a.rt rq.rq_src).Better rq.rq_src_seqno rq.rq_hop_count → rq.rq_hop_count ≠ infinity
  | .reply next_hop _ _ rp => next_hop = a.index →
      (a.rt rp.rp_dst).Better rp.rp_dst_seqno rp.rp_hop_count → rp.rp_hop_count ≠ infinity
  | _ => True

instance (a : AodvAgent) : DecidablePred (Short a)
  | .request _ _ _ => inferInstanceAs (Decidable (_ → _ → _))
  | .reply _ _ _ _ => inferInstanceAs (Decidable (_ → _ → _))
  | .error _ _ => inferInstanceAs (Decidable True)
  | .hello _ => inferInstanceAs (Decidable True)

/-- And only a route that is no longer valid is repaired. -/
def Fits (air : List Msg) (a : AodvAgent) : AodvEvent → Prop
  | .deliver k => ∀ m ∈ air[k]?, Short a m
  | .failed _ ih => a.Repairs ih → (a.rt ih.daddr).rt_hops = infinity
  | _ => True

instance (air : List Msg) (a : AodvAgent) : DecidablePred (Fits air a)
  | .deliver _ => inferInstanceAs (Decidable (∀ _ ∈ _, _))
  | .failed _ _ => inferInstanceAs (Decidable (_ → _))
  | .data _ => inferInstanceAs (Decidable True)
  | .rt_purge _ => inferInstanceAs (Decidable True)
  | .id_purge => inferInstanceAs (Decidable True)
  | .nb_purge _ => inferInstanceAs (Decidable True)
  | .hello => inferInstanceAs (Decidable True)
  | .repair _ => inferInstanceAs (Decidable True)

/-- No node has the broadcast address, and an event there is none. -/
def Asserts (s : AodvNetwork) (i : Input) : Prop :=
  i.n ≠ broadcast → Fits s.air (s.node i.n) i.event

instance (s : AodvNetwork) (i : Input) : Decidable (s.Asserts i) :=
  inferInstanceAs (Decidable (_ → _))

/-- What the claim says of the entries. -/
def Sound (s : AodvNetwork) : Prop := ∀ n d, (s.core n d).Sound

structure Kept (s : AodvNetwork) : Prop where
  index : ∀ n, (s.node n).index = n
  ok : ∀ n, (s.node n).Ok
  steady : ∀ n, (s.node n).Steady
  msgs : ∀ m ∈ s.air, ∀ j d k h, m.announces = some (j, d, k, h) → k % 2 = 0 ∧ d ≠ broadcast

variable {s : AodvNetwork} {i : Input}

theorem Kept.heard (h : s.Kept) {a : AodvAgent} {e : AodvEvent} {j d : ℤ} {k c : ℕ} {passes : Prop}
    (hc : cause s.air a e = .heard j d k c passes) : k % 2 = 0 ∧ d ≠ broadcast := by
  obtain ⟨m, hm, hann, -⟩ := (traced s.air a e).heard j d k c passes hc
  exact h.msgs m hm j d k c hann

theorem Kept.fits (h : s.Kept) {a : AodvAgent} {e : AodvEvent} (he : Fits s.air a e) :
    (cause s.air a e).Fits a := by
  cases e with
  | deliver k =>
    rw [cause]
    cases hk : s.air[k]? with
    | none => trivial
    | some m =>
      have hmsg := h.msgs m (List.mem_of_getElem? hk)
      have hshort := he m hk
      rw [Option.elim_some]
      cases m with
      | request saddr ttl rq =>
        rw [causeOf]
        split_ifs with hi
        · trivial
        · exact fun hb => ⟨(hmsg _ _ _ _ rfl).1, hshort hi hb⟩
      | reply next_hop daddr ttl rp =>
        rw [causeOf]
        split_ifs with hn
        · exact fun hb => ⟨(hmsg _ _ _ _ rfl).1, hshort hn hb⟩
        · trivial
      | error saddr l => trivial
      | hello id => trivial
  | failed next_hop ih =>
    rw [cause]
    split_ifs with hr
    · exact he hr
    · trivial
  | _ => trivial

theorem Kept.handle_total (h : s.Kept) (i : Input) (hi : Fits s.air (s.node i.n) i.event) :
    ∃ r, handle s.air (s.node i.n) i.now i.perHop i.event = some r := by
  obtain ⟨n, now, perHop, e⟩ := i
  have hs := h.steady n
  have hok := h.ok n
  cases e with
  | deliver k =>
    dsimp only at hi ⊢
    rw [handle]
    cases hk : s.air[k]? with
    | none => exact ⟨_, rfl⟩
    | some m =>
      have hmsg := h.msgs m (List.mem_of_getElem? hk)
      have hshort := hi m hk
      rw [Option.elim_some]
      cases m with
      | request saddr ttl rq =>
        exact recvRequest_total hok now saddr _ (hmsg _ _ _ _ rfl).2 hshort
      | reply next_hop daddr ttl rp =>
        rw [recv]
        split_ifs with hn
        · exact hs.recvReply_total hok now daddr _ (hmsg _ _ _ _ rfl).2 fun hb =>
            ⟨(hmsg _ _ _ _ rfl).1, hshort hn hb⟩
        · exact ⟨_, rfl⟩
      | error saddr l => exact hs.recvError_total saddr l
      | hello id => exact hs.recvHello_total now id
  | data ih => exact hs.recvData_total hok now perHop ih
  | failed next_hop ih => exact hs.rt_ll_failed_total now perHop next_hop ih
  | rt_purge d =>
    dsimp only
    rw [handle]
    split_ifs with hd
    · exact hs.rt_purge_total now perHop hd
    · exact ⟨_, rfl⟩
  | id_purge => exact ⟨_, rfl⟩
  | nb_purge id => exact hs.nb_purge_total now id
  | hello => exact ⟨_, rfl⟩
  | repair d => exact ⟨_, rfl⟩

/-- The next state of the network. -/
theorem Kept.next (h : s.Kept) {n : ℤ} (hn : n ≠ broadcast) {e : AodvEvent}
    (he : Fits s.air (s.node n) e) {a : AodvAgent} {out : List Msg}
    (hr : Handled (cause s.air (s.node n) e) (s.node n) (a, out)) :
    Kept ⟨Function.update s.node n a, s.air ++ out⟩ := by
  obtain ⟨hch, hsent⟩ := hr
  dsimp only at hch hsent
  have hindex : a.index = n := hch.index.trans (h.index n)
  have hsound := hch.sound (h.fits he) (h.steady n).sound
  have hown := hch.seqno (h.steady n).own
  refine ⟨?_, ?_, ?_, fun m hm j d k i hann => ?_⟩
  · exact (Function.forall_update_iff s.node (p := fun x b => b.index = x)).mpr
      ⟨hindex, fun x _ => h.index x⟩
  · exact (Function.forall_update_iff s.node (p := fun _ b => b.Ok)).mpr
      ⟨hch.ok, fun x _ => h.ok x⟩
  · refine (Function.forall_update_iff s.node (p := fun _ b => b.Steady)).mpr
      ⟨⟨hsound, hown, ?_⟩, fun x _ => h.steady x⟩
    exact hch.head (h.steady n).head fun j d k i passes hc => (h.heard hc).2
  · rcases List.mem_append.mp hm with hm | hm
    · exact h.msgs m hm j d k i hann
    · obtain ⟨rfl, hcase⟩ := (hsent m hm).announces j d k i hann
      rcases hcase with ⟨rfl, rfl, -⟩ | ⟨-, hmem, hhops, rfl, -⟩ | ⟨_, _, _, hc, -⟩
      · exact ⟨hown.1, hindex ▸ hn⟩
      · refine ⟨(hsound d).2 ((hsound d).up hhops), fun hd => ?_⟩
        exact hch.head (h.steady n).head (fun j d k i passes hc => (h.heard hc).2) (hd ▸ hmem)
      · exact h.heard hc

theorem kept_start : Kept start where
  index _ := rfl
  ok _ _ _ := rfl
  steady _ := ⟨fun _ => sound_down .., show Own 2 from ⟨rfl, by decide⟩, List.not_mem_nil⟩
  msgs := List.forall_mem_nil _

theorem Kept.sound (h : s.Kept) : s.Sound := fun n d => (h.steady n).sound d

theorem Kept.step (h : s.Kept) (hi : s.Asserts i) : ∃ t o, s.step i = some (t, o) ∧ t.Kept := by
  rw [AodvNetwork.step]
  split_ifs with hn
  · exact ⟨s, (), rfl, h⟩
  · obtain ⟨r, hr⟩ := h.handle_total i (hi hn)
    rw [hr]
    exact ⟨_, _, rfl, h.next hn (hi hn) (handle_handled (h.ok i.n) hr)⟩

/-- A route of the largest hop count is taken. -/
theorem breaks_of_heard {a b : AodvAgent} {j d : ℤ} {k : ℕ} {passes : Prop}
    (hch : Changed (.heard j d k infinity passes) a b) (hb : (a.rt d).core.Better k infinity)
    (hnot : ¬ (b.rt d).core.Better k infinity) : ¬ (b.rt d).core.Sound := by
  rcases hch.moves d with hsame | hmove
  · exact absurd (hsame.symm ▸ hb) hnot
  · generalize (b.rt d).core = x at hmove
    cases hmove with
    | learn => exact fun hs => hs.hops rfl rfl

theorem breaks_of_repair {a b : AodvAgent} {d : ℤ} (hch : Changed (.repair d) a b)
    (hhops : (a.rt d).rt_hops ≠ infinity) (hrep : (b.rt d).rt_flags = .RTF_IN_REPAIR) :
    ¬ (b.rt d).core.Sound := by
  have hsame : (b.rt d).rt_hops = (a.rt d).rt_hops := by
    rcases hch.moves d with hsame | hmove
    · exact congrArg Core.hops hsame
    · generalize hx : (b.rt d).core = x at hmove
      cases hmove with
      | repair => exact congrArg Core.hops hx
  intro hs
  have hup : (b.rt d).rt_flags = .RTF_UP := hs.up (hsame.trans_ne hhops)
  simp [hrep] at hup

theorem Kept.breaks (h : s.Kept) {t : AodvNetwork} {o : Unit} (hi : ¬ s.Asserts i)
    (hs : s.step i = some (t, o)) : ¬ t.Sound := by
  obtain ⟨hn, hfits⟩ := Classical.not_imp.mp hi
  rw [AodvNetwork.step, if_neg hn] at hs
  obtain ⟨r, hr, he⟩ := Option.map_eq_some_iff.mp hs
  cases he
  have hok := h.ok i.n
  suffices hbad : ∃ d, ¬ (r.1.rt d).core.Sound by
    obtain ⟨d, hd⟩ := hbad
    intro hsound
    have hd' := hsound i.n d
    rw [core] at hd'
    dsimp only at hd'
    rw [Function.update_self] at hd'
    exact hd hd'
  obtain ⟨n, now, perHop, e⟩ := i
  dsimp only at hfits hr hok
  cases e with
  | deliver k =>
    rw [Fits] at hfits
    push Not at hfits
    obtain ⟨m, hm, hshort⟩ := hfits
    rw [handle, hm, Option.elim_some] at hr
    cases m with
    | request saddr ttl rq =>
      rw [Short] at hshort
      push Not at hshort
      obtain ⟨hi, hb, hhops⟩ := hshort
      obtain ⟨hh, hnot⟩ := recvRequest_handled hok hi hr
      rw [hhops] at hh hb hnot
      exact ⟨_, breaks_of_heard hh.changed hb hnot⟩
    | reply next_hop daddr ttl rp =>
      rw [Short] at hshort
      push Not at hshort
      obtain ⟨hnext, hb, hhops⟩ := hshort
      rw [recv, if_pos hnext] at hr
      obtain ⟨hh, hnot⟩ := recvReply_handled hok hr
      rw [hhops] at hh hb hnot
      exact ⟨_, breaks_of_heard hh.changed hb hnot⟩
    | error saddr l => exact absurd trivial hshort
    | hello id => exact absurd trivial hshort
  | failed next_hop ih =>
    rw [Fits] at hfits
    push Not at hfits
    obtain ⟨hrep, hhops⟩ := hfits
    obtain ⟨hdata, hb, hmem, hlt⟩ := hrep
    rw [handle, rt_ll_failed, if_neg (by simp [hdata, hb, hmem]), if_pos hlt] at hr
    obtain ⟨hh, hflags⟩ := local_rt_repair_handled hok hmem hr
    exact ⟨_, breaks_of_repair hh.changed hhops hflags⟩
  | _ => exact absurd trivial hfits

/-- A run meets no failed assertion, and the hop counts, flags and numbers of all entries agree, if
and only if no route that is still valid is repaired locally and no route of the largest hop count
is taken. -/
theorem sound_iff (is : List Input) :
    Machine.Always step Sound start is ↔ Machine.Admits step Asserts start is :=
  Machine.always_iff (I := Kept) (fun _ h => h.sound) (fun _ _ h hi => h.step hi)
    (fun _ _ _ _ h hi hs => h.breaks hi hs) kept_start is

/-- A route in repair has a hop count, and the assertion of the link failure fails. -/
theorem repair_unsound :
    (¬ ∀ (is : List Input) (t : AodvNetwork) (os : List Unit),
      Machine.run step start is = some (t, os) → t.Sound) ∧
    ¬ ∀ is : List Input, Machine.run step start is ≠ none := by
  constructor
  · intro hall
    have hrun : (Machine.run step start
        (askInputs ++ [⟨2, 1, 1 / 10, .failed 3 (packet 0 3 2)⟩])).map (fun r =>
          ((r.1.core 2 3).flags, (r.1.core 2 3).hops)) = some (.RTF_IN_REPAIR, 1) := by
      decide +kernel
    obtain ⟨⟨t, os⟩, hrun, hfacts⟩ := Option.map_eq_some_iff.mp hrun
    obtain ⟨hflags, hhops⟩ := Prod.mk.inj hfacts
    have hup := (hall _ t os hrun 2 3).up (hhops.trans_ne (by decide))
    simp [hflags] at hup
  · intro hall
    refine hall (askInputs ++ [⟨2, 1, 1 / 10, .failed 3 (packet 0 3 2)⟩,
      ⟨2, 1, 1 / 10, .failed 3 (packet 2 3 0)⟩]) (Option.isNone_iff_eq_none.mp ?_)
    decide +kernel

end AodvNetwork

end Ns2
