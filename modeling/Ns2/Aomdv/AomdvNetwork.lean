import Mathlib.Logic.Relation
import Ns2.Aomdv.AomdvHandlers
import Ns2.Lib.Machine

/-! A network of AOMDV nodes: what an entry satisfies in every state, and that the next hops form no
cycle. -/

namespace Ns2

/-- The nodes and the messages that were sent. A message may reach its receivers at any time, any
number of times or never. -/
structure AomdvNetwork where
  node : ℤ → Aomdv
  air : List AomdvMsg
  /-- A message was written outside of its arrays, and nothing is known of what follows. -/
  stopped : Bool

/-- What happens at a node. -/
inductive AomdvEvent where
  | deliver (k : ℕ)
  | data (ih : AomdvIp)
  | rt_purge (d : ℤ)
  | id_purge
  | nb_purge (id : ℤ) (filtered : List AomdvIp)
  | hello

namespace AomdvNetwork

/-- The nodes before anything happens, each with its own bound variables. -/
def start (max_paths len_diff : ℤ → ℤ) : AomdvNetwork :=
  ⟨fun n => .new n (max_paths n) (len_diff n), [], false⟩

/-- A message that reaches a node. -/
def recv (a : Aomdv) (now : ℚ) : AomdvMsg → Option (Aomdv × List AomdvMsg)
  | .request ih rq => a.recvRequest now { ih with ttl := ih.ttl - 1 } rq
  | .reply next_hop ih rp =>
    if next_hop = a.index then a.recvReply now { ih with ttl := ih.ttl - 1 } rp else some (a, [])
  | .error saddr unreachable => a.recvError saddr unreachable
  | .hello saddr seqno lifetime => a.recvHello now saddr seqno lifetime

/-- An event at a node. The messages are missing if one has too many destinations; `none` is a failed
assertion, or a path that is missing. -/
def handle (air : List AomdvMsg) (a : Aomdv) (now : ℚ) :
    AomdvEvent → Option (Aomdv × Option (List AomdvMsg))
  | .deliver k =>
    match air[k]? with
    | some m => (recv a now m).map fun r => (r.1, some r.2)
    | none => some (a, some [])
  | .data ih => (a.recvData now ih).map fun r => (r.1, some r.2)
  | .rt_purge d =>
    if d ∈ a.rthead then (a.rt_purge now d).map fun r => (r.1, some r.2) else some (a, some [])
  | .id_purge => some (a.id_purge now, some [])
  | .nb_purge id filtered => a.nb_purge now id filtered
  | .hello => some (a, some a.sendHello)

/-- An event at a node and a time. No node has the broadcast address. -/
def step (s : AomdvNetwork) (e : ℤ × ℚ × AomdvEvent) : Option (AomdvNetwork × Unit) :=
  if s.stopped ∨ e.1 = aomdvBroadcast then some (s, ())
  else
    (handle s.air (s.node e.1) e.2.1 e.2.2).map fun r =>
      match r.2 with
      | some out =>
        ({ s with node := Function.update s.node e.1 r.1, air := s.air ++ out }, ())
      | none => ({ s with stopped := true }, ())

/-- A node has sent a hop count about a destination under a sequence number. -/
def Said (air : List AomdvMsg) (j d : ℤ) (k h : ℕ) : Prop :=
  ∃ m ∈ air, m.announces = some (j, d, k, h)

/-- What a node has said is about itself, is old, or is the hop count that it has fixed. -/
def Stands (s : AomdvNetwork) (j d : ℤ) (k h : ℕ) : Prop :=
  j ≠ aomdvBroadcast ∧ (j = d → h = 0) ∧ (j ≠ d → k < ((s.node j).rt d).rt_seqno ∨
    k = ((s.node j).rt d).rt_seqno ∧ ((s.node j).rt d).rt_flags = .RTF_UP ∧
      ((s.node j).rt d).rt_advertised_hops ≠ aomdvInfinity ∧
      h = ((s.node j).rt d).rt_advertised_hops % 256)

structure Inv (s : AomdvNetwork) : Prop where
  nodes : ∀ n, n ≠ aomdvBroadcast → (s.node n).Ok (Said s.air) n
  seqno : ∀ n, n ≠ aomdvBroadcast → 2 ≤ (s.node n).seqno
  void : ∀ d, (s.node aomdvBroadcast).rt d = .new
  msgs : ∀ m ∈ s.air, m.Ok (Said s.air)
  stands : ∀ j d k h, Said s.air j d k h → s.Stands j d k h
  same : ∀ j d k h h', Said s.air j d k h → Said s.air j d k h' → h = h'

/-- No node's own sequence number wraps. -/
def Unwrapped (s : AomdvNetwork) (e : ℤ × ℚ × AomdvEvent) : Prop :=
  ∀ s' o, s.step e = some (s', o) → ∀ n, (s.node n).seqno ≤ (s'.node n).seqno

variable {s : AomdvNetwork} {n : ℤ} {now : ℚ}

theorem said_mono {air : List AomdvMsg} (out : List AomdvMsg) :
    ∀ j d k h, Said air j d k h → Said (air ++ out) j d k h :=
  fun _ _ _ _ ⟨m, hm, he⟩ => ⟨m, List.mem_append_left out hm, he⟩

/-- A message is handled. -/
theorem Inv.recv (h : s.Inv) (hn : n ≠ aomdvBroadcast) {m : AomdvMsg} (hm : m ∈ s.air) :
    ∃ r, recv (s.node n) now m = some r ∧ (s.node n).Handles (Said s.air) n r := by
  have hok := h.nodes n hn
  have hmsg := h.msgs m hm
  cases m with
  | request ih rq => exact hok.recvRequest h.same hmsg rfl rfl
  | reply next_hop ih rp =>
    rw [AomdvNetwork.recv]
    split_ifs
    · obtain ⟨htold, hseqno, hhop, hnb⟩ := hmsg.told _ _ _ _ rfl
      exact hok.recvReply now h.same _ _ htold hseqno hhop hnb
    · exact ⟨_, rfl, (Aomdv.Refreshes.refl _).keeps.handles hok⟩
  | error saddr unreachable => exact hok.recvError hmsg
  | hello saddr seqno lifetime => exact hok.recvHello h.same hmsg

variable (now) in
/-- An event is handled. -/
theorem Inv.handle (h : s.Inv) (hn : n ≠ aomdvBroadcast) (e : AomdvEvent) :
    ∃ r, handle s.air (s.node n) now e = some r ∧
      ∀ out, r.2 = some out → (s.node n).Handles (Said s.air) n (r.1, out) := by
  have hok := h.nodes n hn
  have hnothing : (s.node n).Handles (Said s.air) n (s.node n, []) :=
    (Aomdv.Refreshes.refl _).keeps.handles hok
  have hlift : ∀ {r : Option (Aomdv × List AomdvMsg)},
      (∃ q, r = some q ∧ (s.node n).Handles (Said s.air) n q) →
      ∃ q, r.map (fun q => (q.1, some q.2)) = some q ∧
        ∀ out, q.2 = some out → (s.node n).Handles (Said s.air) n (q.1, out) := by
    rintro _ ⟨q, rfl, hq⟩
    refine ⟨_, rfl, fun out he => ?_⟩
    obtain rfl := Option.some.inj he
    exact hq
  cases e with
  | deliver k =>
    rw [AomdvNetwork.handle]
    cases hk : s.air[k]? with
    | none => exact ⟨_, rfl, fun out he => Option.some.inj he ▸ hnothing⟩
    | some m => exact hlift (h.recv hn (List.mem_of_getElem? hk))
  | data ih => exact hlift (hok.recvData ih)
  | rt_purge d =>
    rw [AomdvNetwork.handle]
    split_ifs with hd
    · exact hlift (hok.rt_purge hd)
    · exact ⟨_, rfl, fun out he => Option.some.inj he ▸ hnothing⟩
  | id_purge =>
    have hr : (s.node n).Refreshes ((s.node n).id_purge now) :=
      ⟨rfl, rfl, rfl, rfl, fun _ => .refl _⟩
    exact ⟨_, rfl, fun out he => Option.some.inj he ▸ hr.keeps.handles (hok.refreshes hr)⟩
  | nb_purge id filtered => exact hok.nb_purge id filtered
  | hello => exact ⟨_, rfl, fun out he => Option.some.inj he ▸ hok.sendHello⟩

/-- What is said after an event. -/
theorem said_append {air out : List AomdvMsg} {j d : ℤ} {k h : ℕ}
    (hs : Said (air ++ out) j d k h) :
    Said air j d k h ∨ ∃ m ∈ out, m.announces = some (j, d, k, h) := by
  obtain ⟨m, hm, he⟩ := hs
  exact (List.mem_append.mp hm).imp (fun hm => ⟨m, hm, he⟩) fun hm => ⟨m, hm, he⟩

/-- The next state of the network after an event that is handled. -/
theorem Inv.next (h : s.Inv) (hn : n ≠ aomdvBroadcast) {a : Aomdv} {out : List AomdvMsg}
    (ha : (s.node n).Handles (Said s.air) n (a, out)) (hseqno : 2 ≤ a.seqno) :
    ({ s with node := Function.update s.node n a, air := s.air ++ out } : AomdvNetwork).Inv := by
  have hself : Function.update s.node n a n = a := Function.update_self ..
  have hother : ∀ x, x ≠ n → Function.update s.node n a x = s.node x := fun x hx =>
    Function.update_of_ne hx ..
  have hmono := @said_mono s.air out
  have hok : a.Ok (Said (s.air ++ out)) n :=
    { ha.ok with entries := fun d => (ha.ok.entries d).mono hmono }
  have hstands : ∀ j d k c, s.Stands j d k c →
      ({ s with node := Function.update s.node n a, air := s.air ++ out } :
        AomdvNetwork).Stands j d k c := by
    rintro j d k c ⟨hj, hown, hst⟩
    refine ⟨hj, hown, fun hjd => ?_⟩
    dsimp only
    by_cases hjn : j = n
    · rw [hjn] at hst hjd ⊢
      rw [hself]
      rcases hst hjd with hst | ⟨hk, hup, hinf, hc⟩
      · left
        rcases (ha.evolves d).seqno with hlt | ⟨he, -⟩
        · exact hst.trans hlt
        · exact he ▸ hst
      · rcases (ha.evolves d).seqno with hlt | ⟨he, hfix⟩
        · exact .inl (hk ▸ hlt)
        · obtain ⟨hup', hadv⟩ := hfix hup hinf
          refine .inr ⟨hk.trans he, hup', ?_, ?_⟩
          · rw [hadv]
            exact hinf
          · rw [hadv]
            exact hc
    · rw [hother j hjn]
      exact hst hjd
  have hnew : ∀ m ∈ out, ∀ j d k c, m.announces = some (j, d, k, c) → j = n ∧
      (d = n ∧ c = 0 ∨ d ≠ n ∧ (a.rt d).rt_flags = .RTF_UP ∧ k = (a.rt d).rt_seqno ∧
        (a.rt d).rt_advertised_hops ≠ aomdvInfinity ∧
        c = (a.rt d).rt_advertised_hops % 256) := fun m hm j d k c he => by
    obtain ⟨hj, -, hown⟩ := (ha.sent m hm).announces j d k c he
    exact ⟨hj, hown.imp (fun h => ⟨h.1, h.2.1⟩) fun h => h⟩
  refine ⟨fun x hx => ?_, fun x hx => ?_, fun d => ?_, fun m hm => ?_, fun j d k c hs => ?_,
    fun j d k c c' hs hs' => ?_⟩
  · by_cases hxn : x = n
    · rw [hxn]
      dsimp only
      rw [hself]
      exact hok
    · dsimp only
      rw [hother x hxn]
      exact { h.nodes x hx with entries := fun d => ((h.nodes x hx).entries d).mono hmono }
  · by_cases hxn : x = n
    · rw [hxn]
      dsimp only
      rw [hself]
      exact hseqno
    · dsimp only
      rw [hother x hxn]
      exact h.seqno x hx
  · dsimp only
    rw [hother _ (Ne.symm hn)]
    exact h.void d
  · rcases List.mem_append.mp hm with hm | hm
    · have hold := h.msgs m hm
      exact ⟨fun j d k c he => ⟨hmono _ _ _ _ (hold.told j d k c he).1, (hold.told j d k c he).2⟩,
        hold.lost, hold.broadcast⟩
    · have hfrom := ha.sent m hm
      refine ⟨fun j d k c he => ⟨⟨m, List.mem_append_right _ hm, he⟩, ?_⟩, hfrom.lost,
        hfrom.broadcast⟩
      obtain ⟨-, hd, ⟨-, rfl, rfl⟩ | ⟨-, hup, rfl, -, rfl⟩⟩ := hfrom.announces j d k c he
      · exact ⟨⟨ha.ok.seqno.1, hseqno, ha.ok.seqno.2⟩, by decide, hd⟩
      · exact ⟨(ha.ok.entries d).even hup, Nat.mod_lt _ (by decide), hd⟩
  · rcases said_append hs with hs | ⟨m, hm, he⟩
    · exact hstands j d k c (h.stands j d k c hs)
    · obtain ⟨rfl, hown⟩ := hnew m hm j d k c he
      refine ⟨hn, fun hjd => ?_, fun hjd => ?_⟩
      · exact hown.elim (·.2) fun h => absurd hjd.symm h.1
      · dsimp only
        rw [hself]
        obtain ⟨rfl, -⟩ | ⟨-, hup, hk, hinf, hc⟩ := hown
        · exact absurd rfl hjd
        · exact .inr ⟨hk, hup, hinf, hc⟩
  · -- what is said now is what was said before, since the hop count is fixed
    have hmixed : ∀ c c', Said s.air j d k c →
        (∃ m ∈ out, m.announces = some (j, d, k, c')) → c = c' := by
      rintro c c' hsaid ⟨m, hm, he⟩
      obtain ⟨rfl, hown⟩ := hnew m hm j d k c' he
      obtain ⟨-, hzero, hst⟩ := hstands j d k c (h.stands j d k c hsaid)
      dsimp only at hst
      rw [hself] at hst
      rcases hown with ⟨rfl, rfl⟩ | ⟨hd, hup, hk, hinf, hc⟩
      · exact hzero rfl
      · rcases hst hd.symm with hlt | ⟨-, -, -, hc'⟩
        · exact absurd hk hlt.ne
        · rw [hc, hc']
    rcases said_append hs with hs | ⟨m, hm, he⟩
    · rcases said_append hs' with hs' | hs'
      · exact h.same j d k c c' hs hs'
      · exact hmixed c c' hs hs'
    · rcases said_append hs' with hs' | ⟨m', hm', he'⟩
      · exact (hmixed c' c hs' ⟨m, hm, he⟩).symm
      · obtain ⟨-, ⟨hd, rfl⟩ | ⟨hd, -, -, -, hc⟩⟩ := hnew m hm j d k c he
        · obtain ⟨-, ⟨-, rfl⟩ | ⟨hd', -⟩⟩ := hnew m' hm' j d k c' he'
          · rfl
          · exact absurd hd hd'
        · obtain ⟨-, ⟨hd', -⟩ | ⟨-, -, -, -, hc'⟩⟩ := hnew m' hm' j d k c' he'
          · exact absurd hd' hd
          · rw [hc, hc']

/-- One event keeps all this, as long as no own number wraps. -/
theorem Inv.step (h : s.Inv) {e : ℤ × ℚ × AomdvEvent} (he : s.Unwrapped e) :
    ∃ s' o, s.step e = some (s', o) ∧ (s'.stopped = false → s'.Inv) ∧
      ∀ n d, AomdvRtEntry.Evolves ((s.node n).rt d) ((s'.node n).rt d) := by
  have hrefl : ∀ n d, AomdvRtEntry.Evolves ((s.node n).rt d) ((s.node n).rt d) := fun n d =>
    (AomdvRtEntry.Quiet.refl _).evolves
  obtain ⟨x, now, ev⟩ := e
  by_cases hstop : s.stopped = true ∨ x = aomdvBroadcast
  · exact ⟨s, (), by rw [AomdvNetwork.step, if_pos hstop], fun _ => h, hrefl⟩
  obtain ⟨hrun, hx⟩ := not_or.mp hstop
  obtain ⟨r, hr, hh⟩ := h.handle now hx ev
  cases hout : r.2 with
  | none =>
    refine ⟨{ s with stopped := true }, (), ?_, fun hf => Bool.noConfusion hf, hrefl⟩
    rw [AomdvNetwork.step, if_neg hstop]
    dsimp only
    rw [hr, Option.map_some, hout]
  | some out =>
    have hs : s.step (x, now, ev) = some ({ s with
        node := Function.update s.node x r.1, air := s.air ++ out }, ()) := by
      rw [AomdvNetwork.step, if_neg hstop]
      dsimp only
      rw [hr, Option.map_some, hout]
    have hseqno := he _ _ hs x
    dsimp only at hseqno
    rw [Function.update_self] at hseqno
    refine ⟨_, _, hs, fun _ => h.next hx (hh out hout) ((h.seqno x hx).trans hseqno),
      fun n d => ?_⟩
    by_cases hn : n = x
    · rw [hn]
      dsimp only
      rw [Function.update_self]
      exact (hh out hout).evolves d
    · dsimp only
      rw [Function.update_of_ne hn]
      exact hrefl n d

theorem inv_start (max_paths len_diff : ℤ → ℤ) : (start max_paths len_diff).Inv where
  nodes n hn := ⟨rfl, hn, ⟨show (2 : ℕ) % 2 = 0 by decide, show 2 < 2 ^ 32 by decide⟩,
    fun d => AomdvRtEntry.ok_new (zero_le_one.trans (Aomdv.one_le_cap _)), List.not_mem_nil, fun d _ =>
      ⟨show AomdvRtEntry.new.rt_flags ≠ .RTF_UP by decide, rfl⟩⟩
  seqno n _ := le_rfl
  void d := rfl
  msgs := List.forall_mem_nil _
  stands := fun _ _ _ _ ⟨_, hm, _⟩ => absurd hm List.not_mem_nil
  same := fun _ _ _ _ _ ⟨_, hm, _⟩ => absurd hm List.not_mem_nil

theorem Inv.entry (h : s.Inv) (n d : ℤ) :
    ((s.node n).rt d).Ok (Said s.air) (s.node n).cap n d := by
  by_cases hn : n = aomdvBroadcast
  · rw [hn, h.void d]
    exact AomdvRtEntry.ok_new (zero_le_one.trans (Aomdv.one_le_cap _))
  · exact (h.nodes n hn).entries d

/-- The paths that are stored have hop counts below 255. -/
def Short (s : AomdvNetwork) (e : ℤ × ℚ × AomdvEvent) : Prop :=
  ∀ s' o, s.step e = some (s', o) →
    ∀ n d, ∀ p ∈ ((s'.node n).rt d).rt_path_list, p.hopcount < 255

theorem step_other {s s' : AomdvNetwork} {e : ℤ × ℚ × AomdvEvent} {o : Unit} {x : ℤ}
    (h : s.step e = some (s', o)) (hx : x ≠ e.1) : s'.node x = s.node x := by
  rw [step] at h
  split_ifs at h
  · obtain ⟨rfl, -⟩ := Prod.mk.inj (Option.some.inj h)
    rfl
  · obtain ⟨r, -, hr⟩ := Option.map_eq_some_iff.mp h
    cases hout : r.2 with
    | none =>
      rw [hout] at hr
      obtain ⟨rfl, -⟩ := Prod.mk.inj hr
      rfl
    | some out =>
      rw [hout] at hr
      obtain ⟨rfl, -⟩ := Prod.mk.inj hr
      exact Function.update_of_ne hx ..

/-- What has to be looked at of one event: the node at which it happens. -/
theorem Inv.proper (h : s.Inv) {e : ℤ × ℚ × AomdvEvent} {s' : AomdvNetwork} {o : Unit}
    (hs : s.step e = some (s', o)) (hgo : s'.stopped = false)
    (hseqno : (s.node e.1).seqno ≤ (s'.node e.1).seqno)
    (hold : ∀ n d, ∀ p ∈ ((s.node n).rt d).rt_path_list, p.hopcount < 255)
    (hnew : ∀ d ∈ (s'.node e.1).rthead, ∀ p ∈ ((s'.node e.1).rt d).rt_path_list,
      p.hopcount < 255) :
    (s.Unwrapped e ∧ s.Short e) ∧ s'.Inv ∧
      ∀ n d, ∀ p ∈ ((s'.node n).rt d).rt_path_list, p.hopcount < 255 := by
  have hun : s.Unwrapped e := fun t o' ht x => by
    obtain ⟨rfl, -⟩ := Prod.mk.inj (Option.some.inj (hs.symm.trans ht))
    by_cases hx : x = e.1
    · rw [hx]
      exact hseqno
    · rw [step_other hs hx]
  obtain ⟨t, o', ht, hinv, -⟩ := h.step hun
  obtain ⟨rfl, -⟩ := Prod.mk.inj (Option.some.inj (hs.symm.trans ht))
  have hinv := hinv hgo
  have hshort : ∀ n d, ∀ p ∈ ((s'.node n).rt d).rt_path_list, p.hopcount < 255 := by
    intro x d p hp
    by_cases hx : x = e.1
    · rw [hx] at hp
      by_cases hd : d ∈ (s'.node e.1).rthead
      · exact hnew d hd p hp
      · have hok := hinv.entry e.1 d
        by_cases hb : e.1 = aomdvBroadcast
        · rw [hb, hinv.void d] at hp
          cases hp
        · exact absurd (hok.up.mpr (List.ne_nil_of_mem hp)) ((hinv.nodes _ hb).absent d hd).1
    · rw [step_other hs hx] at hp
      exact hold x d p hp
  refine ⟨⟨hun, fun t o' ht => ?_⟩, hinv, hshort⟩
  obtain ⟨rfl, -⟩ := Prod.mk.inj (Option.some.inj (hs.symm.trans ht))
  exact hshort

/-- Node 1 hears an old hello message again, and loses the neighbour again. -/
def againEvents : List (ℤ × ℚ × AomdvEvent) := [(1, 0, .deliver 2), (1, 3, .nb_purge 2 [])]

structure Idle (k : ℕ) (s : AomdvNetwork) : Prop where
  stopped : s.stopped = false
  air : s.air[2]? = some (.hello 2 2 4)
  length : s.air.length = 3
  index : (s.node 1).index = 1
  seqno : (s.node 1).seqno = k
  nbhead : (s.node 1).nbhead = []
  rthead : (s.node 1).rthead = [2]
  flags : ((s.node 1).rt 2).rt_flags = .RTF_DOWN
  number : ((s.node 1).rt 2).rt_seqno = 3
  fresh : s.node 3 = .new 3 3 1

theorem Idle.again {k : ℕ} {s : AomdvNetwork} (h : s.Idle k) (hk : k % 2 = 0) :
    ∃ t os, Machine.run step s againEvents = some (t, os) ∧ t.Idle (add32 k 2) := by
  obtain ⟨hstop, hair, hlen, hindex, hseqno, hnb, hhead, hflags, hnum, hfresh⟩ := h
  have heven : add32 k 2 % 2 = 0 := (Aomdv.add32_even (by omega)).1
  obtain ⟨a, ha⟩ : ∃ a : Aomdv, a = { s.node 1 with nbhead := [(2, 3)] } := ⟨_, rfl⟩
  have h1 : handle s.air (s.node 1) 0 (.deliver 2) =
      some ((a.setRt 2 (a.rt 2)), some []) := by
    rw [handle, hair, ha]
    simp [recv, Aomdv.recvHello, hnb, Aomdv.nb_insert, Aomdv.recvReply, hindex, Aomdv.rt_ensure, Aomdv.rt_lookup, hhead, Aomdv.forwardPath, hnum]
  obtain ⟨b, hb⟩ : ∃ b : Aomdv, b = { a.setRt 2 (a.rt 2) with
      seqno := add32 k 2, nbhead := [] } := ⟨_, rfl⟩
  have h2 : handle s.air (a.setRt 2 (a.rt 2)) 3 (.nb_purge 2 []) =
      some (b.setRt 2 (b.rt 2), some []) := by
    rw [handle, hb, ha]
    simp [Aomdv.nb_purge, Aomdv.setRt, hseqno, heven, hhead, Aomdv.forEach, Aomdv.failEntry, hflags,
      Aomdv.salvage, Aomdv.sendError, aomdvMaxErrors]
  refine ⟨{ s with node := Function.update s.node 1 (b.setRt 2 (b.rt 2)) }, [(), ()], ?_, ?_⟩
  · have hone : (1 : ℤ) ≠ aomdvBroadcast := by decide
    have hs1 : s.step (1, 0, .deliver 2) = some ({ s with
        node := Function.update s.node 1 (a.setRt 2 (a.rt 2)) }, ()) := by
      rw [step, if_neg (by simp [hstop, hone])]
      dsimp only
      rw [h1]
      simp
    have hs2 : ({ s with node := Function.update s.node 1 (a.setRt 2 (a.rt 2)) } :
        AomdvNetwork).step (1, 3, .nb_purge 2 []) = some ({ s with
          node := Function.update s.node 1 (b.setRt 2 (b.rt 2)) }, ()) := by
      rw [step, if_neg (by simp [hstop, hone])]
      dsimp only
      rw [Function.update_self, h2]
      simp
    rw [againEvents, Machine.run_cons_some hs1, Machine.run_cons_some hs2]
    rfl
  · have hnode : Function.update s.node 1 (b.setRt 2 (b.rt 2)) 1 = b.setRt 2 (b.rt 2) :=
      Function.update_self ..
    refine ⟨hstop, hair, hlen, ?_, ?_, ?_, ?_, ?_, ?_, ?_⟩
    all_goals dsimp only
    · rw [hnode, hb, ha]
      exact hindex
    · rw [hnode, hb]
      rfl
    · rw [hnode, hb]
      rfl
    · rw [hnode, hb, ha]
      exact hhead
    · simpa [hnode, hb, ha, Aomdv.setRt] using hflags
    · simpa [hnode, hb, ha, Aomdv.setRt] using hnum
    · rw [Function.update_of_ne (by decide)]
      exact hfresh

theorem Idle.repeated {k : ℕ} {s : AomdvNetwork} (h : s.Idle k) (hk : k % 2 = 0)
    (hlt : k < 2 ^ 32) (m : ℕ) :
    ∃ t os, Machine.run step s (List.replicate m againEvents).flatten = some (t, os) ∧
      t.Idle ((k + 2 * m) % 2 ^ 32) := by
  induction m generalizing s k with
  | zero =>
    refine ⟨s, [], rfl, ?_⟩
    rw [Nat.mul_zero, Nat.add_zero, Nat.mod_eq_of_lt hlt]
    exact h
  | succ m ih =>
    obtain ⟨t, os, ht, hidle⟩ := h.again hk
    obtain ⟨heven, hlt'⟩ := Aomdv.add32_even (a := k) (b := 2) (by omega)
    obtain ⟨u, os', hu, hidle'⟩ := ih hidle heven hlt'
    refine ⟨u, os ++ os', ?_, ?_⟩
    · rw [List.replicate_succ, List.flatten_cons, Machine.run_append, ht, Option.bind_some, hu]
      rfl
    · rw [add32] at hidle'
      convert hidle' using 1
      omega

/-- Every hop count that is fixed is below 255. -/
def Low (s : AomdvNetwork) : Prop :=
  ∀ n d, ((s.node n).rt d).rt_flags = .RTF_UP →
    ((s.node n).rt d).rt_advertised_hops ≠ aomdvInfinity →
      ((s.node n).rt d).rt_advertised_hops < 255

/-- `j` is a next hop of `i` for a destination. -/
def NextHop (s : AomdvNetwork) (d i j : ℤ) : Prop :=
  ∃ p ∈ ((s.node i).rt d).rt_path_list, p.nexthop = j

/-- A next hop has a newer number, or the same one and a smaller hop count, or no paths. -/
theorem Inv.next_hop (h : s.Inv) (hlow : s.Low) {d i j : ℤ} (hij : s.NextHop d i j) :
    ((s.node j).rt d).rt_path_list = [] ∨
      ((s.node i).rt d).rt_seqno < ((s.node j).rt d).rt_seqno ∨
      ((s.node i).rt d).rt_seqno = ((s.node j).rt d).rt_seqno ∧
        ((s.node j).rt d).rt_advertised_hops < ((s.node i).rt d).rt_advertised_hops := by
  obtain ⟨p, hp, rfl⟩ := hij
  have hi := h.entry i d
  have hiup := hi.up.mpr (List.ne_nil_of_mem hp)
  obtain ⟨c, hc, hpc, hsaid⟩ := hi.told p hp
  obtain ⟨-, -, hst⟩ := h.stands _ _ _ _ hsaid
  by_cases hd : p.nexthop = d
  · left
    by_contra hne
    have hj := h.entry p.nexthop d
    exact hj.ne_self (hj.up.mpr hne) hd.symm
  · right
    rcases hst hd with hlt | ⟨he, hup, hinf, hadv⟩
    · exact .inl hlt
    · refine .inr ⟨he, ?_⟩
      have hsmall := hlow _ _ hup hinf
      rw [Nat.mod_eq_of_lt (by omega)] at hadv
      rcases hi.hops p hp with hiinf | hle
      · rw [hiinf, aomdvInfinity]
        omega
      · omega

theorem Inv.next_hops (h : s.Inv) (hlow : s.Low) {d i j : ℤ}
    (hij : Relation.TransGen (s.NextHop d) i j) :
    ((s.node j).rt d).rt_path_list = [] ∨
      ((s.node i).rt d).rt_seqno < ((s.node j).rt d).rt_seqno ∨
      ((s.node i).rt d).rt_seqno = ((s.node j).rt d).rt_seqno ∧
        ((s.node j).rt d).rt_advertised_hops < ((s.node i).rt d).rt_advertised_hops := by
  induction hij with
  | single hij => exact h.next_hop hlow hij
  | tail _ hjk ih =>
    have hjpaths : ((s.node _).rt d).rt_path_list ≠ [] := List.ne_nil_of_mem hjk.choose_spec.1
    rcases ih with hnil | ih
    · exact absurd hnil hjpaths
    · rcases h.next_hop hlow hjk with hnil | hk
      · exact .inl hnil
      · right
        omega

end AomdvNetwork

end Ns2
