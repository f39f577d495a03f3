import Ns2.Aodv.AodvMoves

/-! What each handler of an AODV node does to its routes and says to the others. -/

namespace Ns2

namespace AodvAgent

variable {s t u : AodvAgent} {now perHop : ℚ} {d : ℤ} {c : Cause} {rt : RtEntry}

/-- A node asks itself, or has seen the request before. -/
def Ignores (s : AodvAgent) (rq : Request) : Prop :=
  rq.rq_src = s.index ∨ s.id_lookup rq.rq_src rq.rq_bcast_id = true

instance (s : AodvAgent) (rq : Request) : Decidable (s.Ignores rq) :=
  inferInstanceAs (Decidable (_ ∨ _))

theorem recvRequest_ignored (now : ℚ) (saddr ttl : ℤ) {rq : Request} (h : s.Ignores rq) :
    s.recvRequest now saddr ttl rq = some (s, []) := by
  rw [recvRequest]
  split_ifs with h1 h2
  · rfl
  · rfl
  · exact absurd h (not_or.mpr ⟨h1, h2⟩)

/-- A request is passed on: the node neither asked, nor has seen it, nor can it answer. -/
def PassesRequest (s : AodvAgent) (ttl : ℤ) (rq : Request) : Prop :=
  ¬ s.Ignores rq ∧ rq.rq_dst ≠ s.index ∧ ttl ≠ 0 ∧
    ¬ (rq.rq_dst ≠ rq.rq_src ∧ rq.rq_dst ∈ s.rthead ∧
      (s.rt rq.rq_dst).rt_hops ≠ infinity ∧ rq.rq_dst_seqno ≤ (s.rt rq.rq_dst).rt_seqno)

instance (s : AodvAgent) (ttl : ℤ) (rq : Request) : Decidable (s.PassesRequest ttl rq) :=
  inferInstanceAs (Decidable (_ ∧ _ ∧ _ ∧ _))

/-- A reply is passed on: its route is a better one, and there is a route to its receiver. -/
def PassesReply (s : AodvAgent) (daddr ttl : ℤ) (rp : Reply) : Prop :=
  (s.rt rp.rp_dst).Better rp.rp_dst_seqno rp.rp_hop_count ∧ daddr ≠ s.index ∧ ttl ≠ 0 ∧
    (daddr = rp.rp_dst ∨ daddr ∈ s.rthead ∧ (s.rt daddr).rt_hops ≠ infinity)

instance (s : AodvAgent) (daddr ttl : ℤ) (rp : Reply) : Decidable (s.PassesReply daddr ttl rp) :=
  inferInstanceAs (Decidable (_ ∧ _ ∧ _ ∧ _))

theorem core_pc_insert (rt : RtEntry) (id : ℤ) : (rt.pc_insert id).core = rt.core := by
  rw [RtEntry.pc_insert]
  split_ifs <;> rfl

theorem reverseRoute_core (now : ℚ) (saddr : ℤ) (rq : Request) (rt : RtEntry) :
    (reverseRoute now saddr rq rt).core =
      if rt.Better rq.rq_src_seqno rq.rq_hop_count then
        ⟨rq.rq_src_seqno, rq.rq_hop_count, .RTF_UP, saddr⟩
      else rt.core := by
  rw [reverseRoute]
  split_ifs <;> rfl

theorem not_better_reverseRoute (now : ℚ) (saddr : ℤ) (rq : Request) (rt : RtEntry) :
    ¬ (reverseRoute now saddr rq rt).core.Better rq.rq_src_seqno rq.rq_hop_count := by
  rw [reverseRoute_core]
  split_ifs with hb
  · exact fun h => h.elim (lt_irrefl _) fun h => lt_irrefl _ h.2
  · exact hb

theorem quiet_pc_insert (s : AodvAgent) (d id : ℤ) :
    Quiet s (s.setRt d ((s.rt d).pc_insert id)) := quiet_setRt (core_pc_insert ..)

theorem answerRoute_quiet (t : AodvAgent) (now : ℚ) (rq : Request) :
    Quiet t (t.answerRoute now rq).1 := (quiet_pc_insert ..).trans (quiet_pc_insert ..)

theorem answerRoute_handled {rq : Request} (h : Changed c s t)
    (hdst : rq.rq_dst ≠ t.index) (hmem : rq.rq_dst ∈ t.rthead)
    (hhops : (t.rt rq.rq_dst).rt_hops ≠ infinity) : Handled c s (t.answerRoute now rq) := by
  have hq := answerRoute_quiet t now rq
  refine ⟨h.quiet hq, fun m hm => ?_⟩
  obtain rfl := List.mem_singleton.mp hm
  refine ⟨fun j d k i he => ?_, fun j l he => by cases he⟩
  cases he
  have hrt : ((t.answerRoute now rq).1.rt rq.rq_dst).rt_hops = (t.rt rq.rq_dst).rt_hops :=
    congrArg Core.hops (hq.core rq.rq_dst)
  refine ⟨rfl, .inr (.inl ⟨hdst, hmem, hrt ▸ hhops, ?_, ?_⟩)⟩
  · exact (congrArg Core.seqno (hq.core rq.rq_dst)).symm
  · rw [hrt]

theorem even_plus {a b : ℕ} (h : (a + b) % 2 = 0) : Own (plus a b) := by
  rw [plus]
  exact ⟨by omega, Nat.mod_lt _ (by decide)⟩

theorem answerSeqno_own (s : AodvAgent) (k : ℕ) : Own (s.answerSeqno k) := by
  rw [answerSeqno]
  split_ifs with h
  · exact even_plus (by omega)
  · exact ⟨not_not.mp h, Nat.mod_lt _ (by decide)⟩

/-- The end of a request, once the reverse route is there. -/
theorem answerRequest_handled {saddr ttl : ℤ} {rq : Request} {passes : Prop}
    (h : Changed (.heard saddr rq.rq_src rq.rq_src_seqno rq.rq_hop_count passes) s t)
    (hcore : ¬ (t.rt rq.rq_src).core.Better rq.rq_src_seqno rq.rq_hop_count)
    (hpass : rq.rq_dst ≠ t.index → ttl ≠ 0 → ¬ (rq.rq_dst ∈ t.rthead ∧
      (t.rt rq.rq_dst).rt_hops ≠ infinity ∧ (t.rt rq.rq_dst).rt_seqno ≥ rq.rq_dst_seqno) → passes) :
    Handled (.heard saddr rq.rq_src rq.rq_src_seqno rq.rq_hop_count passes) s
        (t.answerRequest now ttl rq) ∧
      ¬ ((t.answerRequest now ttl rq).1.rt rq.rq_src).core.Better rq.rq_src_seqno
        rq.rq_hop_count := by
  rw [answerRequest]
  split_ifs with h1 h2
  · have hown : Own (t.answerSeqno rq.rq_dst_seqno) := answerSeqno_own t rq.rq_dst_seqno
    refine ⟨(h.renew hown).sends ⟨fun j d k i he => ?_, fun j l he => by cases he⟩, hcore⟩
    cases he
    exact ⟨rfl, .inl ⟨rfl, rfl, rfl⟩⟩
  · refine ⟨answerRoute_handled h h1 h2.1 h2.2.1, ?_⟩
    rw [(answerRoute_quiet t now rq).core]
    exact hcore
  · refine ⟨?_, hcore⟩
    by_cases httl : ttl = 0
    · rw [forwardRequest, if_pos httl]
      exact h.nothing
    · rw [forwardRequest, if_neg httl]
      refine h.sends ⟨fun j d k i he => ?_, fun j l he => by cases he⟩
      cases he
      exact ⟨rfl, .inr (.inr ⟨saddr, _, passes, rfl, hpass h1 httl h2, hcore, rfl⟩)⟩

theorem recvRequest_handled (hs : s.Ok) {saddr ttl : ℤ} {rq : Request} (hnew : ¬ s.Ignores rq)
    {r : AodvAgent × List Msg} (h : s.recvRequest now saddr ttl rq = some r) :
    Handled (.heard saddr rq.rq_src rq.rq_src_seqno rq.rq_hop_count (s.PassesRequest ttl rq)) s
        r ∧
      ¬ (r.1.rt rq.rq_src).core.Better rq.rq_src_seqno rq.rq_hop_count := by
  obtain ⟨h1, h2⟩ := not_or.mp hnew
  rw [recvRequest, if_neg h1, if_neg h2] at h
  obtain ⟨t, ht, rfl⟩ := Option.map_eq_some_iff.mp h
  -- the request is remembered, and there is an entry for its source
  have hseen : Quiet s (s.id_insert now rq.rq_src rq.rq_bcast_id) := ⟨rfl, rfl, rfl, fun _ => rfl⟩
  obtain ⟨hok, hmem, hindex, -, hhead, hcore⟩ := (hseen.ok hs).ensure rq.rq_src
  generalize hu : (s.id_insert now rq.rq_src rq.rq_bcast_id).rt_ensure rq.rq_src = u at *
  have hcore' := reverseRoute_core now saddr rq (u.rt rq.rq_src)
  have hset : Changed (.heard saddr rq.rq_src rq.rq_src_seqno rq.rq_hop_count
      (s.PassesRequest ttl rq)) u
      (u.setRt rq.rq_src (reverseRoute now saddr rq (u.rt rq.rq_src))) := by
    refine hok.set hmem ?_
    rw [hcore']
    split_ifs with hb
    · exact .inr (.learn hb)
    · exact .inl rfl
  have hserved : Quiet (u.setRt rq.rq_src (reverseRoute now saddr rq (u.rt rq.rq_src))) t := by
    split_ifs at ht
    · exact serve_quiet ht
    · cases ht
      exact .refl _
  have hall : Changed (.heard saddr rq.rq_src rq.rq_src_seqno rq.rq_hop_count
      (s.PassesRequest ttl rq)) s t :=
    (hseen.before (Ok.after_ensure (hseen.ok hs) (fun hc => hc _ _ _ _ _ rfl)
      (hu ▸ hset.quiet hserved)))
  refine answerRequest_handled hall ?_ fun hdst httl hroute => ?_
  · rw [hserved.core, setRt_self]
    exact not_better_reverseRoute now saddr rq _
  · refine ⟨hnew, hall.index ▸ hdst, httl, fun hans => hroute ?_⟩
    obtain ⟨hne, hin, hhops, hle⟩ := hans
    have hsame : (t.rt rq.rq_dst).core = (s.rt rq.rq_dst).core := by
      rw [hserved.core, setRt_other u _ hne, hcore]
      rfl
    refine ⟨?_, ?_, ?_⟩
    · rw [hserved.head]
      exact (hhead _).mpr (.inr hin)
    · rw [show (t.rt rq.rq_dst).rt_hops = _ from congrArg Core.hops hsame]
      exact hhops
    · rw [show (t.rt rq.rq_dst).rt_seqno = _ from congrArg Core.seqno hsame]
      exact hle

theorem forwardReply_handled {daddr ttl : ℤ} {rp : Reply} {passes : Prop} {j : ℤ}
    (h : Changed (.heard j rp.rp_dst rp.rp_dst_seqno rp.rp_hop_count passes) s t)
    (hcore : ¬ (t.rt rp.rp_dst).core.Better rp.rp_dst_seqno rp.rp_hop_count)
    (hpass : ttl ≠ 0 → daddr ∈ t.rthead → (t.rt daddr).rt_hops ≠ infinity → passes)
    {r : AodvAgent × List Msg} (hr : t.forwardReply now daddr ttl rp = some r) :
    Handled (.heard j rp.rp_dst rp.rp_dst_seqno rp.rp_hop_count passes) s r ∧
      ¬ (r.1.rt rp.rp_dst).core.Better rp.rp_dst_seqno rp.rp_hop_count := by
  rw [forwardReply] at hr
  split_ifs at hr with h1 h2
  · obtain ⟨⟨u, next⟩, hu, rfl⟩ := Option.map_eq_some_iff.mp hr
    obtain ⟨hq, hsent⟩ := forward_quiet hu
    have hq' := hq.trans (quiet_pc_insert u rp.rp_dst (u.rt daddr).rt_nexthop)
    have hcore' : ¬ ((u.setRt rp.rp_dst ((u.rt rp.rp_dst).pc_insert
        (u.rt daddr).rt_nexthop)).rt rp.rp_dst).core.Better rp.rp_dst_seqno rp.rp_hop_count := by
      rw [hq'.core]
      exact hcore
    refine ⟨⟨h.quiet hq', fun m hm => ?_⟩, hcore'⟩
    cases next with
    | none => exact absurd hm List.not_mem_nil
    | some next_hop =>
      obtain rfl := List.mem_singleton.mp hm
      refine ⟨fun i d k c he => ?_, fun i l he => by cases he⟩
      cases he
      exact ⟨hq'.index.symm, .inr (.inr ⟨j, _, passes, rfl,
        hpass (hsent (Option.some_ne_none _)) h1.1 h1.2, hcore', rfl⟩)⟩
  · cases hr
    exact ⟨h.nothing, hcore⟩

theorem recvReply_handled (hs : s.Ok) {daddr ttl : ℤ} {rp : Reply} {r : AodvAgent × List Msg}
    (h : s.recvReply now daddr ttl rp = some r) :
    Handled (.heard rp.rp_src rp.rp_dst rp.rp_dst_seqno rp.rp_hop_count
        (s.PassesReply daddr ttl rp)) s r ∧
      ¬ (r.1.rt rp.rp_dst).core.Better rp.rp_dst_seqno rp.rp_hop_count := by
  rw [recvReply] at h
  obtain ⟨hok, hmem, hindex, -, hhead, hcore⟩ := hs.ensure rp.rp_dst
  have hens : ∀ {t : AodvAgent}, Changed (.heard rp.rp_src rp.rp_dst rp.rp_dst_seqno
      rp.rp_hop_count (s.PassesReply daddr ttl rp)) (s.rt_ensure rp.rp_dst) t →
      Changed (.heard rp.rp_src rp.rp_dst rp.rp_dst_seqno rp.rp_hop_count
        (s.PassesReply daddr ttl rp)) s t :=
    Ok.after_ensure hs fun hc => hc _ _ _ _ _ rfl
  generalize s.rt_ensure rp.rp_dst = u at *
  split_ifs at h with hb
  · obtain ⟨t, ht, hrest⟩ := Option.bind_eq_some_iff.mp h
    obtain ⟨rt, hrt⟩ : ∃ rt : RtEntry, rt = ((u.rt rp.rp_dst).rt_update rp.rp_dst_seqno
        rp.rp_hop_count rp.rp_src (now + rp.rp_lifetime)).resetRequests rp.rp_hop_count := ⟨_, rfl⟩
    rw [← hrt] at ht
    have hrt' : rt.core = ⟨rp.rp_dst_seqno, rp.rp_hop_count, .RTF_UP, rp.rp_src⟩ := by
      rw [hrt]
      rfl
    have hserved : Quiet (u.setRt rp.rp_dst rt) t := by
      split_ifs at ht
      · exact serve_quiet ht
      · cases ht
        exact quiet_dequeAll ..
    have hall := hens ((hok.set hmem (.inr (hrt' ▸ .learn hb))).quiet hserved)
    have htcore : (t.rt rp.rp_dst).core = rt.core := by rw [hserved.core, setRt_self]
    have hnot : ¬ (t.rt rp.rp_dst).core.Better rp.rp_dst_seqno rp.rp_hop_count := by
      rw [htcore, hrt']
      exact fun hbad => hbad.elim (lt_irrefl _) fun hbad => lt_irrefl _ hbad.2
    split_ifs at hrest with hdone
    · cases hrest
      exact ⟨hall.nothing, hnot⟩
    · refine forwardReply_handled hall hnot (fun httl hin hhops => ?_) hrest
      · refine ⟨?_, hall.index ▸ hdone, httl, ?_⟩
        · exact (show (s.rt rp.rp_dst).core.Better _ _ from hcore rp.rp_dst ▸ hb)
        · by_cases hd : daddr = rp.rp_dst
          · exact .inl hd
          · have hsame : (t.rt daddr).core = (s.rt daddr).core := by
              rw [hserved.core, setRt_other u _ hd, hcore]
            rw [hserved.head] at hin
            refine .inr ⟨((hhead daddr).mp hin).resolve_left hd, ?_⟩
            rw [show (s.rt daddr).rt_hops = _ from (congrArg Core.hops hsame).symm]
            exact hhops
  · cases h
    exact ⟨(hens hok.same).nothing, hb⟩

/-- The cause takes routes down and does nothing else. -/
def Cause.Downs : Cause → Prop
  | .lost _ _ => True
  | .failed _ => True
  | _ => False

theorem Move.downs {a b : Core} (h : Move c d a b) (hc : c.Downs) :
    a.flags = .RTF_UP ∧ b.flags = .RTF_DOWN := by
  cases h with
  | lose _ hup => exact ⟨hup, rfl⟩
  | fail hup => exact ⟨hup, rfl⟩
  | learn => exact hc.elim
  | expire => exact hc.elim
  | repair => exact hc.elim
  | down => exact hc.elim

theorem Changed.still (h : Changed c s t) (hc : c.Downs) (hd : (s.rt d).rt_flags = .RTF_DOWN) :
    (t.rt d).core = (s.rt d).core :=
  (h.moves d).resolve_right fun hm => by
    have hup : (s.rt d).rt_flags = .RTF_UP := (hm.downs hc).1
    simp [hup] at hd

theorem Changed.trans_downs (h1 : Changed c s t) (hc : c.Downs) (h2 : Changed c t u) :
    Changed c s u where
  index := h2.index.trans h1.index
  seqno := fun he => h2.seqno (h1.seqno he)
  ok := h2.ok
  head := fun hb hc => h2.head (h1.head hb hc) hc
  moves := fun d => by
    rcases h1.moves d with he | hm
    · rw [← he]
      exact h2.moves d
    · rw [h2.still hc (hm.downs hc).2]
      exact .inr hm

/-- What is reported about the entries that are down. -/
def Reported (s : AodvAgent) (l : List (ℤ × ℕ)) : Prop :=
  ∀ x ∈ l, (s.rt x.1).rt_flags = .RTF_DOWN ∧ x.2 = (s.rt x.1).rt_seqno

/-- An entry is handled, and then the others. -/
theorem Ok.entry (hs : s.Ok) (hc : c.Downs) (hd : d ∈ s.rthead) {l q : List (ℤ × ℕ)}
    (hrt : rt.core = (s.rt d).core ∨ Move c d (s.rt d).core rt.core)
    (hl : ∀ x ∈ l, x.1 = d ∧ rt.rt_flags = .RTF_DOWN ∧ x.2 = rt.rt_seqno)
    (h : Changed c (s.setRt d rt) t ∧ t.Reported q) : Changed c s t ∧ t.Reported (l ++ q) := by
  refine ⟨(hs.set hd hrt).trans_downs hc h.1, fun x hx => ?_⟩
  rcases List.mem_append.mp hx with hx | hx
  · obtain ⟨rfl, hdown, hk⟩ := hl x hx
    have hsame : (t.rt x.1).core = rt.core := by
      rw [h.1.still hc (by rw [setRt_self]; exact hdown), setRt_self]
    exact ⟨(congrArg Core.flags hsame).trans hdown, hk.trans (congrArg Core.seqno hsame).symm⟩
  · exact h.2 x hx

theorem rt_down_core (rt : RtEntry) (h : rt.rt_flags ≠ .RTF_DOWN) :
    rt.rt_down.core = ⟨rt.rt_seqno, infinity, .RTF_DOWN, 0⟩ := by
  rw [RtEntry.rt_down, if_neg h]
  rfl

theorem failEntry_spec {id : ℤ} {r : RtEntry × List (ℤ × ℕ)} (h : failEntry id d rt = some r) :
    (r.1.core = rt.core ∨ Move (.failed id) d rt.core r.1.core) ∧
      ∀ x ∈ r.2, x.1 = d ∧ r.1.rt_flags = .RTF_DOWN ∧ x.2 = r.1.rt_seqno := by
  rw [failEntry] at h
  split_ifs at h with h1 h2
  · cases h
    obtain ⟨hup, heven⟩ := not_or.mp h2
    have hdown : (({ rt with
        rt_seqno := plus rt.rt_seqno 1 } : RtEntry).rt_down.pc_delete id).core =
          ⟨plus rt.rt_seqno 1, infinity, .RTF_DOWN, 0⟩ :=
      rt_down_core { rt with rt_seqno := plus rt.rt_seqno 1 } (by simp [not_not.mp hup])
    refine ⟨.inr ?_, fun x hx => ?_⟩
    · rw [hdown]
      exact .fail (not_not.mp hup) h1.2 (not_not.mp heven)
    · obtain rfl := List.mem_singleton.mp hx
      exact ⟨rfl, congrArg Core.flags hdown, (congrArg Core.seqno hdown).symm⟩
  · cases h
    exact ⟨.inl rfl, List.forall_mem_nil _⟩

theorem failLoop_spec {id : ℤ} {ds : List ℤ} {r : AodvAgent × List (ℤ × ℕ)} (hs : s.Ok)
    (hds : ∀ d ∈ ds, d ∈ s.rthead) (h : failLoop id s ds = some r) :
    Changed (.failed id) s r.1 ∧ r.1.Reported r.2 := by
  induction ds generalizing s r with
  | nil =>
    cases h
    exact ⟨hs.same, List.forall_mem_nil _⟩
  | cons d ds ih =>
    obtain ⟨hd, hds⟩ := List.forall_mem_cons.mp hds
    obtain ⟨e, he, hrest⟩ := Option.bind_eq_some_iff.mp h
    obtain ⟨q, hq, rfl⟩ := Option.map_eq_some_iff.mp hrest
    obtain ⟨hmove, hl⟩ := failEntry_spec he
    exact hs.entry (c := .failed id) trivial hd hmove hl (ih (hs.set hd hmove).ok hds hq)

theorem errorEntry_spec {saddr : ℤ} {k : ℕ} {l : List (ℤ × ℕ)} {r : RtEntry × List (ℤ × ℕ)}
    (hk : (d, k) ∈ l) (h : errorEntry saddr k d rt = some r) :
    (r.1.core = rt.core ∨ Move (.lost saddr l) d rt.core r.1.core) ∧
      ∀ x ∈ r.2, x.1 = d ∧ r.1.rt_flags = .RTF_DOWN ∧ x.2 = r.1.rt_seqno := by
  rw [errorEntry] at h
  split_ifs at h with h1 h2
  · cases h
    obtain ⟨hup, heven⟩ := not_or.mp h2
    have hdown : ({ ({ rt with rt_seqno := k } : RtEntry).rt_down with
        rt_pclist := [] } : RtEntry).core = ⟨k, infinity, .RTF_DOWN, 0⟩ :=
      rt_down_core { rt with rt_seqno := k } (by simp [not_not.mp hup])
    refine ⟨.inr ?_, fun x hx => ?_⟩
    · rw [hdown]
      exact .lose hk (not_not.mp hup) h1.2.1 (not_not.mp heven) h1.2.2
    · split_ifs at hx
      · exact absurd hx List.not_mem_nil
      · obtain rfl := List.mem_singleton.mp hx
        exact ⟨rfl, congrArg Core.flags hdown, rfl⟩
  · cases h
    exact ⟨.inl rfl, List.forall_mem_nil _⟩

theorem errorLoop_spec {saddr : ℤ} {l ds : List (ℤ × ℕ)} {r : AodvAgent × List (ℤ × ℕ)}
    (hs : s.Ok) (hds : ∀ x ∈ ds, x ∈ l) (h : errorLoop saddr s ds = some r) :
    Changed (.lost saddr l) s r.1 ∧ r.1.Reported r.2 := by
  induction ds generalizing s r with
  | nil =>
    cases h
    exact ⟨hs.same, List.forall_mem_nil _⟩
  | cons x ds ih =>
    obtain ⟨d, k⟩ := x
    obtain ⟨hx, hds⟩ := List.forall_mem_cons.mp hds
    rw [errorLoop] at h
    split_ifs at h with hd
    · obtain ⟨e, he, hrest⟩ := Option.bind_eq_some_iff.mp h
      obtain ⟨q, hq, rfl⟩ := Option.map_eq_some_iff.mp hrest
      obtain ⟨hmove, hl⟩ := errorEntry_spec hx he
      exact hs.entry (c := .lost saddr l) trivial hd hmove hl (ih (hs.set hd hmove).ok hds hq)
    · exact ih hs hds h

theorem Changed.reports (h : Changed c s t) {l : List (ℤ × ℕ)} (hl : t.Reported l) :
    Handled c s (t, t.sendError l) := by
  rw [sendError]
  split_ifs
  · exact h.nothing
  · refine h.sends ⟨fun j d k i he => (by cases he), fun j q he => ?_⟩
    cases he
    exact hl

theorem recvError_handled (hs : s.Ok) {saddr : ℤ} {l : List (ℤ × ℕ)} {r : AodvAgent × List Msg}
    (h : s.recvError saddr l = some r) : Handled (.lost saddr l) s r := by
  obtain ⟨q, hq, rfl⟩ := Option.map_eq_some_iff.mp h
  obtain ⟨hch, hrep⟩ := errorLoop_spec hs (fun _ hx => hx) hq
  exact hch.reports hrep

theorem Ok.renumber (hs : s.Ok) {k : ℕ} (hk : k % 2 = 0) (nb : List (ℤ × ℚ)) :
    Changed c s { s with seqno := plus s.seqno k, nbhead := nb } :=
  ⟨rfl, fun he => even_plus (by have := he.1; omega), hs, fun hb _ => hb, fun _ => .inl rfl⟩

theorem nb_delete_handled (hs : s.Ok) {id : ℤ} {r : AodvAgent × List Msg}
    (h : s.nb_delete id = some r) : Handled (.failed id) s r := by
  rw [nb_delete] at h
  split_ifs at h
  have hren := hs.renumber (c := .failed id) (k := 2) rfl (s.nbhead.eraseP fun nb => nb.1 = id)
  obtain ⟨q, hq, rfl⟩ := Option.map_eq_some_iff.mp h
  obtain ⟨hch, hrep⟩ := failLoop_spec hren.ok (fun _ hx => hx) hq
  exact (hren.trans_downs trivial hch).reports hrep

theorem nb_purge_handled (hs : s.Ok) {id : ℤ} {r : AodvAgent × List Msg}
    (h : s.nb_purge now id = some r) : Handled (.failed id) s r := by
  rw [nb_purge] at h
  split_ifs at h
  · exact nb_delete_handled hs h
  · cases h
    exact hs.same.nothing

theorem recvHello_handled (hs : s.Ok) {id : ℤ} {r : AodvAgent × List Msg}
    (h : s.recvHello now id = some r) : Handled c s r := by
  rw [recvHello] at h
  split_ifs at h
  · cases h
    have hq : Quiet s { s with nbhead := s.nbhead.map fun nb =>
        if nb.1 = id then (nb.1, now + 3 / 2 * 3) else nb } := ⟨rfl, rfl, rfl, fun _ => rfl⟩
    exact (hq.changed hs).nothing
  · cases h
    exact (hs.renumber rfl _).nothing

/-- The packet is to be repaired here, and not reported. -/
def Repairs (s : AodvAgent) (ih : Ip) : Prop :=
  ih.data = true ∧ ih.daddr ≠ broadcast ∧ ih.daddr ∈ s.rthead ∧
    (s.rt ih.daddr).rt_hops < ih.num_forwards

instance (s : AodvAgent) (ih : Ip) : Decidable (s.Repairs ih) :=
  inferInstanceAs (Decidable (_ ∧ _ ∧ _ ∧ _))

theorem local_rt_repair_handled (hs : s.Ok) {ih : Ip} (hd : ih.daddr ∈ s.rthead)
    {r : AodvAgent × List Msg} (h : s.local_rt_repair now perHop ih = some r) :
    Handled (.repair ih.daddr) s r ∧ (r.1.rt ih.daddr).rt_flags = .RTF_IN_REPAIR := by
  have hq := quiet_enque s now ih
  have hch : Changed (.repair ih.daddr) s ((s.enque now ih).setRt ih.daddr
      { (s.enque now ih).rt ih.daddr with rt_flags := .RTF_IN_REPAIR }) :=
    hq.before ((hq.ok hs).set hd (.inr .repair))
  obtain ⟨hch', hsent⟩ := sendRequest_handled (c := .quiet) hch.ok h
  have hsame : ∀ d, (r.1.rt d).core = (((s.enque now ih).setRt ih.daddr
      { (s.enque now ih).rt ih.daddr with rt_flags := .RTF_IN_REPAIR }).rt d).core := fun d =>
    (hch'.moves d).resolve_right fun hm => by cases hm
  have hflags := congrArg Core.flags (hsame ih.daddr)
  rw [setRt_self] at hflags
  refine ⟨⟨⟨hch'.index.trans hch.index, fun he => hch'.seqno (hch.seqno he), hch'.ok,
    fun hb hc => hch'.head (hch.head hb hc) fun j d k i p he => (by cases he), fun d => ?_⟩,
    fun m hm => ?_⟩, hflags⟩
  · rw [hsame d]
    exact hch.moves d
  · obtain ⟨hann, hlost⟩ := hsent m hm
    refine ⟨fun j d k i he => ?_, hlost⟩
    obtain ⟨hj, h1 | h1 | ⟨_, _, _, hbad, -⟩⟩ := hann j d k i he
    · exact ⟨hj, .inl h1⟩
    · exact ⟨hj, .inr (.inl h1)⟩
    · cases hbad

theorem rt_ll_failed_handled (hs : s.Ok) {id : ℤ} {ih : Ip} {r : AodvAgent × List Msg}
    (h : s.rt_ll_failed now perHop id ih = some r) :
    Handled (if s.Repairs ih then .repair ih.daddr else .failed id) s r := by
  rw [rt_ll_failed] at h
  split_ifs at h with h1 h2
  · cases h
    exact hs.same.nothing
  · obtain ⟨hdata, h1⟩ := not_or.mp h1
    obtain ⟨hb, hd⟩ := not_or.mp h1
    rw [if_pos ⟨not_not.mp hdata, hb, not_not.mp hd, h2⟩]
    exact (local_rt_repair_handled hs (not_not.mp hd) h).1
  · rw [if_neg fun hrep => h2 hrep.2.2.2]
    exact nb_delete_handled hs h

theorem flags_down {f : RtFlags} (hup : f ≠ .RTF_UP) (hrep : f ≠ .RTF_IN_REPAIR) :
    f = .RTF_DOWN := by
  cases f <;> simp_all

theorem flags_in_repair {f : RtFlags} (hup : f ≠ .RTF_UP) (hdown : f ≠ .RTF_DOWN) :
    f = .RTF_IN_REPAIR := by
  cases f <;> simp_all

theorem repairTimer_handled (hs : s.Ok) (d : ℤ) : Handled (.timer d) s (s.repairTimer d, []) := by
  rw [repairTimer]
  split_ifs with h
  · by_cases hdown : (s.rt d).rt_flags = .RTF_DOWN
    · refine (hs.set h.1 (.inl ?_)).nothing
      rw [RtEntry.rt_down, if_pos hdown]
    · refine (hs.set h.1 (.inr ?_)).nothing
      rw [rt_down_core _ hdown]
      exact .down (flags_in_repair h.2 hdown)
  · exact hs.same.nothing

theorem rt_resolve_handled (hs : s.Ok) (ih : Ip) (hb : ih.daddr ≠ broadcast)
    {r : AodvAgent × List Msg} (h : s.rt_resolve now perHop ih = some r) :
    Handled .quiet s r := by
  rw [rt_resolve] at h
  obtain ⟨hok, -⟩ := hs.ensure ih.daddr
  have hens : ∀ {t : AodvAgent}, Changed .quiet (s.rt_ensure ih.daddr) t → Changed .quiet s t :=
    Ok.after_ensure hs fun _ => hb
  have hall : Handled .quiet (s.rt_ensure ih.daddr) r := by
    generalize s.rt_ensure ih.daddr = u at *
    split_ifs at h with h1 h2 h3 h4
    · obtain ⟨q, hq, rfl⟩ := Option.map_eq_some_iff.mp h
      exact ((forward_quiet hq).1.changed hok).nothing
    · have hq := quiet_enque u now ih
      obtain ⟨hch, hsent⟩ := sendRequest_handled (c := .quiet) (hq.ok hok) h
      exact ⟨hq.before hch, hsent⟩
    · cases h
      exact ((quiet_enque u now ih).changed hok).nothing
    · cases h
      refine hok.same.sends ⟨fun j d k i he => (by cases he), fun j l he x hx => ?_⟩
      cases he
      obtain rfl := List.mem_singleton.mp hx
      exact ⟨flags_down h1 h4, rfl⟩
  exact ⟨hens hall.changed, hall.sent⟩

theorem recvData_handled (hs : s.Ok) {ih : Ip} {r : AodvAgent × List Msg}
    (h : s.recvData now perHop ih = some r) : Handled .quiet s r := by
  rw [recvData] at h
  split_ifs at h with h1 h2 h3 h4
  · cases h
    exact hs.same.nothing
  · exact rt_resolve_handled hs { ih with ttl := NETWORK_DIAMETER } h1 h
  · cases h
    exact hs.same.nothing
  · cases h
    exact hs.same.nothing
  · exact rt_resolve_handled hs { ih with ttl := ih.ttl - 1 } h1 h

theorem rt_purge_handled (hs : s.Ok) (hd : d ∈ s.rthead) {r : AodvAgent × List Msg}
    (h : s.rt_purge now perHop d = some r) : Handled (.expired d) s r := by
  rw [rt_purge] at h
  dsimp only at h
  split_ifs at h with h1 h2 h3 h4
  · cases h
    have hq := quiet_dequeAll s now d
    have hdown := rt_down_core { s.rt d with rt_seqno := plus (s.rt d).rt_seqno 1 }
      (by simp [h1])
    refine (hq.before ((hq.ok hs).set hd (.inr ?_))).nothing
    rw [hdown]
    exact .expire h1 h4
  · obtain ⟨t, ht, rfl⟩ := Option.map_eq_some_iff.mp h
    exact ((serve_quiet ht).changed hs).nothing
  · exact sendRequest_handled hs h
  · cases h
    exact hs.same.nothing

/-- Why a message changes a route of the node that receives it. -/
def causeOf (s : AodvAgent) : Msg → Cause
  | .request saddr ttl rq =>
    if s.Ignores rq then .quiet
    else .heard saddr rq.rq_src rq.rq_src_seqno rq.rq_hop_count (s.PassesRequest (ttl - 1) rq)
  | .reply next_hop daddr ttl rp =>
    if next_hop = s.index then
      .heard rp.rp_src rp.rp_dst rp.rp_dst_seqno rp.rp_hop_count (s.PassesReply daddr (ttl - 1) rp)
    else .quiet
  | .error saddr l => .lost saddr l
  | .hello _ => .quiet

theorem recv_handled (hs : s.Ok) {m : Msg} {r : AodvAgent × List Msg}
    (h : AodvNetwork.recv s now m = some r) : Handled (s.causeOf m) s r := by
  cases m with
  | request saddr ttl rq =>
    rw [causeOf]
    split_ifs with hi
    · rw [AodvNetwork.recv, recvRequest_ignored now saddr _ hi] at h
      cases h
      exact hs.same.nothing
    · exact (recvRequest_handled hs hi h).1
  | reply next_hop daddr ttl rp =>
    rw [causeOf]
    rw [AodvNetwork.recv] at h
    split_ifs with hn
    · rw [if_pos hn] at h
      exact (recvReply_handled hs h).1
    · rw [if_neg hn] at h
      cases h
      exact hs.same.nothing
  | error saddr l => exact recvError_handled hs h
  | hello id => exact recvHello_handled hs h

end AodvAgent

namespace AodvNetwork

open AodvAgent

/-- Why an event changes a route of the node at which it happens. -/
def cause (air : List Msg) (a : AodvAgent) : AodvEvent → Cause
  | .deliver k => (air[k]?).elim .quiet a.causeOf
  | .data _ => .quiet
  | .failed next_hop ih => if a.Repairs ih then .repair ih.daddr else .failed next_hop
  | .rt_purge d => .expired d
  | .id_purge => .quiet
  | .nb_purge id => .failed id
  | .hello => .quiet
  | .repair d => .timer d

/-- Routes are heard or reported by messages; all else the node does by itself. -/
theorem cause_cases (air : List Msg) (a : AodvAgent) (e : AodvEvent) :
    (∃ k m, e = .deliver k ∧ air[k]? = some m ∧ cause air a e = a.causeOf m) ∨
      (cause air a e).Local ∧ ∀ d, cause air a e = .timer d → e = .repair d := by
  cases e with
  | deliver k =>
    cases hk : air[k]? with
    | none => simp [cause, hk, Cause.Local]
    | some m => simp [cause, hk]
  | failed next_hop ih =>
    by_cases hr : a.Repairs ih <;> simp [cause, hr, Cause.Local]
  | data ih => simp [cause, Cause.Local]
  | rt_purge d => simp [cause, Cause.Local]
  | id_purge => simp [cause, Cause.Local]
  | nb_purge id => simp [cause, Cause.Local]
  | hello => simp [cause, Cause.Local]
  | repair d => simp [cause, Cause.Local]

theorem handle_handled {air : List Msg} {a : AodvAgent} {now perHop : ℚ} {e : AodvEvent}
    {r : AodvAgent × List Msg} (ha : a.Ok) (h : handle air a now perHop e = some r) :
    Handled (cause air a e) a r := by
  cases e with
  | deliver k =>
    rw [handle] at h
    rw [cause]
    cases hk : air[k]? with
    | none =>
      rw [hk] at h
      cases h
      exact ha.same.nothing
    | some m =>
      rw [hk] at h
      exact recv_handled ha h
  | data ih => exact recvData_handled ha h
  | failed next_hop ih => exact rt_ll_failed_handled ha h
  | rt_purge d =>
    rw [handle] at h
    split_ifs at h with hd
    · exact rt_purge_handled ha hd h
    · cases h
      exact ha.same.nothing
  | id_purge =>
    cases h
    have hq : Quiet a (a.id_purge now) := ⟨rfl, rfl, rfl, fun _ => rfl⟩
    exact (hq.changed ha).nothing
  | nb_purge id => exact nb_purge_handled ha h
  | hello =>
    cases h
    exact ha.same.sends ⟨fun j d k i he => (by cases he), fun j l he => by cases he⟩
  | repair d =>
    cases h
    exact repairTimer_handled ha d

end AodvNetwork

end Ns2
