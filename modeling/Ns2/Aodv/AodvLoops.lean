import Ns2.Aodv.AodvHandlers
import Ns2.Lib.Machine

/-! A network of AODV nodes: along the next hops of a destination sequence numbers grow or hop
counts fall, as long as no repair is given up. -/

namespace Ns2

namespace AodvAgent

/-- A sequence number as a destination gives it. -/
def Known (k : ℕ) : Prop := k % 2 = 0 ∧ 2 ≤ k ∧ k < 2 ^ 32

/-- A sequence number as it is reported with a lost destination. -/
def Lost (k : ℕ) : Prop := k % 2 = 1 ∨ k = 0

namespace Core

/-- A route is replaced by one that is newer, or as new and no longer. -/
def Improves (a b : Core) : Prop := a.seqno < b.seqno ∨ a.seqno = b.seqno ∧ b.hops ≤ a.hops

theorem Improves.refl (a : Core) : Improves a a := .inr ⟨rfl, le_rfl⟩

theorem Improves.not_better {a b : Core} (h : Improves a b) {k i : ℕ} (ha : ¬ a.Better k i) :
    ¬ b.Better k i := by
  simp only [Improves, Better, not_or, not_and, not_lt] at *
  omega

structure Valid (a : Core) : Prop where
  hops : a.hops ≤ infinity
  known : a.flags = .RTF_UP ∨ a.hops ≠ infinity → Known a.seqno
  down : a.flags = .RTF_DOWN → a.hops = infinity ∧ Lost a.seqno

end Core

/-- The route that a message offers can be taken, and reported numbers are those of lost routes. -/
def Cause.Sane : Cause → Prop
  | .heard _ _ k h passes => Known k ∧ 1 ≤ h ∧ h ≤ infinity ∧ (passes → h ≠ infinity)
  | .lost _ l => ∀ x ∈ l, Lost x.2
  | _ => True

variable {c : Cause} {d : ℤ} {a b : Core}

theorem Move.valid (h : Move c d a b) (hc : c.Sane) (ha : a.Valid)
    (htimer : c = .timer d → a.flags ≠ .RTF_IN_REPAIR) : b.Valid ∧ a.Improves b := by
  have hodd : a.flags = .RTF_UP → plus a.seqno 1 = a.seqno + 1 ∧ a.seqno % 2 = 0 := fun hup => by
    obtain ⟨heven, -, hlt⟩ := ha.known (.inl hup)
    rw [plus]
    omega
  cases h with
  | learn hb =>
    obtain ⟨hk, -, hle, -⟩ := hc
    exact ⟨⟨hle, fun _ => hk, fun hd => by cases hd⟩, hb.imp id fun h => ⟨h.1, h.2.le⟩⟩
  | lose hl hup _ _ hk =>
    have hlost := hc _ hl
    have hknown := ha.known (.inl hup)
    refine ⟨⟨le_rfl, fun h => h.elim (fun h => by cases h) (absurd rfl), fun _ => ⟨rfl, hlost⟩⟩, ?_⟩
    simp only [Lost, Known, Core.Improves] at *
    omega
  | fail hup =>
    obtain ⟨he, heven⟩ := hodd hup
    refine ⟨⟨le_rfl, fun h => h.elim (fun h => by cases h) (absurd rfl),
      fun _ => ⟨rfl, .inl ?_⟩⟩, .inl ?_⟩ <;> dsimp only <;> omega
  | expire hup =>
    obtain ⟨he, heven⟩ := hodd hup
    refine ⟨⟨le_rfl, fun h => h.elim (fun h => by cases h) (absurd rfl),
      fun _ => ⟨rfl, .inl ?_⟩⟩, .inl ?_⟩ <;> dsimp only <;> omega
  | repair =>
    exact ⟨⟨ha.hops, fun h => ha.known (.inr (h.resolve_left fun h => by cases h)),
      fun h => by cases h⟩, .refl a⟩
  | down hrep => exact absurd hrep (htimer rfl)

/-- Only a route that is heard is up. -/
theorem Move.learned (h : Move c d a b) (hup : b.flags = .RTF_UP) : ∃ j k i passes,
    c = .heard j d k i passes ∧ a.Better k i ∧ b = ⟨k, i, .RTF_UP, j⟩ := by
  cases h with
  | learn hb => exact ⟨_, _, _, _, rfl, hb, rfl⟩
  | lose => cases hup
  | fail => cases hup
  | expire => cases hup
  | repair => cases hup
  | down => cases hup

end AodvAgent

namespace AodvNetwork

open AodvAgent

/-- The route of a node. -/
def core (s : AodvNetwork) (n d : ℤ) : Core := ((s.node n).rt d).core

/-- A message passed on has room for one more hop, and no node takes a route to itself. -/
def Heeds (a : AodvAgent) : Msg → Prop
  | .request _ ttl rq => a.PassesRequest (ttl - 1) rq → rq.rq_hop_count ≠ infinity
  | .reply next_hop daddr ttl rp =>
    next_hop = a.index →
      ¬ (rp.rp_dst = a.index ∧ (a.rt rp.rp_dst).Better rp.rp_dst_seqno rp.rp_hop_count) ∧
      (a.PassesReply daddr (ttl - 1) rp → rp.rp_hop_count ≠ infinity)
  | _ => True

/-- Besides, no repair is given up. -/
def Careful (air : List Msg) (a : AodvAgent) : AodvEvent → Prop
  | .deliver k => ∀ m ∈ air[k]?, Heeds a m
  | .repair d => (a.rt d).rt_flags ≠ .RTF_IN_REPAIR
  | _ => True

/-- The node's own sequence number does not wrap. -/
def Unwrapped (s : AodvNetwork) (i : Input) : Prop :=
  ∀ r ∈ s.step i, (s.node i.n).seqno ≤ (r.1.node i.n).seqno

/-- What the claim asks of a step, and what the code needs besides. -/
def Safe (s : AodvNetwork) (i : Input) : Prop := Careful s.air (s.node i.n) i.event

/-- What has been said still stands. -/
def Stands (s : AodvNetwork) (j d : ℤ) (k h : ℕ) : Prop :=
  Known k ∧ 1 ≤ h ∧ h ≤ infinity ∧ (j = d ∨ ¬ (s.core j d).Better k (h - 1))

structure Inv (s : AodvNetwork) : Prop where
  index : ∀ n, (s.node n).index = n
  ok : ∀ n, (s.node n).Ok
  own : ∀ n, Known (s.node n).seqno
  valid : ∀ n d, (s.core n d).Valid
  self : ∀ n, (s.core n n).flags ≠ .RTF_UP
  told : ∀ m ∈ s.air, ∀ j d k h, m.announces = some (j, d, k, h) → s.Stands j d k h
  lost : ∀ m ∈ s.air, ∀ j l, m = .error j l → ∀ x ∈ l, Lost x.2
  next : ∀ n d, (s.core n d).flags = .RTF_UP →
    s.Stands (s.core n d).nexthop d (s.core n d).seqno (s.core n d).hops

variable {s : AodvNetwork} {i : Input}

/-- Where a cause comes from. -/
structure Traced (air : List Msg) (a : AodvAgent) (e : AodvEvent) (c : Cause) : Prop where
  heard : ∀ j d k h passes, c = .heard j d k h passes → ∃ m ∈ air,
    m.announces = some (j, d, k, h) ∧ (Careful air a e →
      (d = a.index → ¬ (a.rt d).core.Better k h) ∧ (passes → h ≠ infinity))
  lost : ∀ j l, c = .lost j l → .error j l ∈ air
  timer : ∀ d, c = .timer d → e = .repair d

variable {air : List Msg} {a : AodvAgent} {e : AodvEvent}

theorem traced_of_local {c : Cause} (hc : c.Local) (ht : ∀ d, c = .timer d → e = .repair d) :
    Traced air a e c :=
  ⟨fun _ _ _ _ _ h => absurd hc (by rw [h]; exact id), fun _ _ h => absurd hc (by rw [h]; exact id),
    ht⟩

theorem traced_of_message {k : ℕ} {m : Msg} (hm : air[k]? = some m) :
    Traced air a (.deliver k) (a.causeOf m) := by
  have hmem := List.mem_of_getElem? hm
  have hquiet : Traced air a (.deliver k) .quiet := traced_of_local trivial fun _ h => by cases h
  cases m with
  | request saddr ttl rq =>
    rw [causeOf]
    split_ifs with hi
    · exact hquiet
    · refine ⟨fun j d k h passes he => ?_, fun j l he => (by cases he), fun d he => by cases he⟩
      cases he
      exact ⟨_, hmem, rfl, fun hcare => ⟨fun hd => absurd (.inl hd) hi, hcare _ hm⟩⟩
  | reply next_hop daddr ttl rp =>
    rw [causeOf]
    split_ifs with hn
    · refine ⟨fun j d k h passes he => ?_, fun j l he => (by cases he), fun d he => by cases he⟩
      cases he
      exact ⟨_, hmem, rfl, fun hcare => ⟨fun hd hb => (hcare _ hm hn).1 ⟨hd, hb⟩,
        (hcare _ hm hn).2⟩⟩
    · exact hquiet
  | error saddr l =>
    refine ⟨fun j d k h passes he => (by cases he), fun j l he => ?_, fun d he => by cases he⟩
    cases he
    exact hmem
  | hello id => exact hquiet

theorem traced (air : List Msg) (a : AodvAgent) (e : AodvEvent) :
    Traced air a e (cause air a e) := by
  rcases cause_cases air a e with ⟨k, m, rfl, hm, hc⟩ | ⟨hlocal, htimer⟩
  · rw [hc]
    exact traced_of_message hm
  · exact traced_of_local hlocal htimer

theorem Inv.sane (h : s.Inv) {n : ℤ} {e : AodvEvent} (he : Careful s.air (s.node n) e) :
    (cause s.air (s.node n) e).Sane := by
  have ht := traced s.air (s.node n) e
  cases hc : cause s.air (s.node n) e with
  | heard j d k i passes =>
    obtain ⟨m, hm, hann, hcare⟩ := ht.heard j d k i passes hc
    obtain ⟨hk, hpos, hle, -⟩ := h.told m hm j d k i hann
    exact ⟨hk, hpos, hle, (hcare he).2⟩
  | lost j l => exact h.lost _ (ht.lost j l hc) j l rfl
  | quiet => trivial
  | failed id => trivial
  | expired d => trivial
  | repair d => trivial
  | timer d => trivial

/-- What holds at the node of an event afterwards. -/
theorem Inv.node (h : s.Inv) {n : ℤ} {e : AodvEvent} (he : Careful s.air (s.node n) e)
    {a : AodvAgent} (ha : Changed (cause s.air (s.node n) e) (s.node n) a) (d : ℤ) :
    (a.rt d).core.Valid ∧ (s.core n d).Improves (a.rt d).core := by
  rcases ha.moves d with hsame | hmove
  · rw [hsame]
    exact ⟨h.valid n d, .refl _⟩
  · refine hmove.valid (h.sane he) (h.valid n d) fun hc => ?_
    have hev := (traced s.air (s.node n) e).timer d hc
    rw [hev, Careful] at he
    exact he

theorem Stands.mono {t : AodvNetwork} (hst : ∀ n d, (s.core n d).Improves (t.core n d))
    {j d : ℤ} {k c : ℕ} (h : s.Stands j d k c) : t.Stands j d k c :=
  ⟨h.1, h.2.1, h.2.2.1, h.2.2.2.imp id (hst j d).not_better⟩

/-- The next state of the network. -/
theorem Inv.next_inv (h : s.Inv) {n : ℤ} {e : AodvEvent} (he : Careful s.air (s.node n) e)
    {a : AodvAgent} {out : List Msg}
    (hr : Handled (cause s.air (s.node n) e) (s.node n) (a, out))
    (hown : (s.node n).seqno ≤ a.seqno) :
    Inv ⟨Function.update s.node n a, s.air ++ out⟩ := by
  obtain ⟨hch, hsent⟩ := hr
  dsimp only at hch hsent
  have hindex : a.index = n := hch.index.trans (h.index n)
  have hnode := h.node he hch
  have hown' : Known a.seqno := by
    obtain ⟨heven, hge, hlt⟩ := h.own n
    exact ⟨(hch.seqno ⟨heven, hlt⟩).1, hge.trans hown, (hch.seqno ⟨heven, hlt⟩).2⟩
  have himp : ∀ x d, (s.core x d).Improves
      (core ⟨Function.update s.node n a, s.air ++ out⟩ x d) :=
    (Function.forall_update_iff s.node (p := fun x b => ∀ d,
      (s.core x d).Improves (b.rt d).core)).mpr ⟨fun d => (hnode d).2, fun x _ d => .refl _⟩
  have hheard : ∀ j d k i passes, cause s.air (s.node n) e = .heard j d k i passes →
      Stands ⟨Function.update s.node n a, s.air ++ out⟩ j d k i ∧
        (d = n → ¬ (s.core n d).Better k i) ∧ (passes → i ≠ infinity) :=
    fun j d k i passes hc => by
      obtain ⟨m, hm, hann, hcare⟩ := (traced s.air (s.node n) e).heard j d k i passes hc
      obtain ⟨hd, hpass⟩ := hcare he
      rw [h.index] at hd
      exact ⟨(h.told m hm j d k i hann).mono himp, hd, hpass⟩
  -- a route that is up is an old one, or it was heard just now
  have hup : ∀ d, (a.rt d).core.flags = .RTF_UP → (s.core n d).flags = .RTF_UP ∧
      (a.rt d).core = s.core n d ∨ d ≠ n ∧ Stands ⟨Function.update s.node n a, s.air ++ out⟩
        (a.rt d).core.nexthop d (a.rt d).core.seqno (a.rt d).core.hops := fun d hup => by
    rcases hch.moves d with hsame | hmove
    · rw [hsame] at hup ⊢
      exact .inl ⟨hup, rfl⟩
    · obtain ⟨j, k, i, passes, hc, hb, heq⟩ := hmove.learned hup
      obtain ⟨hst, hd, -⟩ := hheard j d k i passes hc
      rw [heq]
      exact .inr ⟨fun hdn => hd hdn hb, hst⟩
  refine ⟨?_, ?_, ?_, ?_, ?_, fun m hm j d k i hann => ?_, fun m hm j l hl => ?_, ?_⟩
  · exact (Function.forall_update_iff s.node (p := fun x b => b.index = x)).mpr
      ⟨hindex, fun x _ => h.index x⟩
  · exact (Function.forall_update_iff s.node (p := fun _ b => b.Ok)).mpr
      ⟨hch.ok, fun x _ => h.ok x⟩
  · exact (Function.forall_update_iff s.node (p := fun _ b => Known b.seqno)).mpr
      ⟨hown', fun x _ => h.own x⟩
  · exact (Function.forall_update_iff s.node (p := fun _ b => ∀ d, (b.rt d).core.Valid)).mpr
      ⟨fun d => (hnode d).1, fun x _ => h.valid x⟩
  · refine (Function.forall_update_iff s.node
      (p := fun x b => (b.rt x).core.flags ≠ .RTF_UP)).mpr ⟨fun hu => ?_, fun x _ => h.self x⟩
    rcases hup n hu with hold | hnew
    · exact h.self n hold.1
    · exact hnew.1 rfl
  · rcases List.mem_append.mp hm with hm | hm
    · exact (h.told m hm j d k i hann).mono himp
    · obtain ⟨rfl, hcase⟩ := (hsent m hm).announces j d k i hann
      have hself : core ⟨Function.update s.node n a, s.air ++ out⟩ a.index d = (a.rt d).core := by
        rw [core, hindex]
        exact congrArg (fun b : AodvAgent => (b.rt d).core) (Function.update_self ..)
      rcases hcase with ⟨rfl, rfl, rfl⟩ | ⟨-, -, hhops, rfl, rfl⟩ | ⟨j, i, passes, hc, hp, hb, rfl⟩
      · exact ⟨hown', le_rfl, by decide, .inl rfl⟩
      · have hlt : (a.rt d).rt_hops < infinity := lt_of_le_of_ne (hnode d).1.hops hhops
        rw [infinity] at hlt
        refine ⟨(hnode d).1.known (.inr hhops), ?_, ?_, .inr ?_⟩
        · omega
        · rw [infinity]
          omega
        · rw [hself, Nat.mod_eq_of_lt (by omega), Nat.add_sub_cancel]
          exact fun hbad => hbad.elim (lt_irrefl _) fun hbad => lt_irrefl _ hbad.2
      · obtain ⟨⟨hk, hpos, hle, -⟩, -, hpass⟩ := hheard j d k i passes hc
        have hlt : i < infinity := lt_of_le_of_ne hle (hpass hp)
        rw [infinity] at hlt
        rw [addHop]
        refine ⟨hk, ?_, ?_, .inr ?_⟩
        · omega
        · rw [infinity]
          omega
        · rw [hself, Nat.mod_eq_of_lt (by omega), Nat.add_sub_cancel]
          exact hb
  · rcases List.mem_append.mp hm with hm | hm
    · exact h.lost m hm j l hl
    · intro x hx
      obtain ⟨hdown, hk⟩ := (hsent m hm).lost j l hl x hx
      rw [hk]
      exact ((hnode x.1).1.down hdown).2
  · refine (Function.forall_update_iff s.node (p := fun x b => ∀ d,
      (b.rt d).core.flags = .RTF_UP → Stands ⟨Function.update s.node n a, s.air ++ out⟩
        (b.rt d).core.nexthop d (b.rt d).core.seqno (b.rt d).core.hops)).mpr
      ⟨fun d hu => ?_, fun x _ d hu => (h.next x d hu).mono himp⟩
    rcases hup d hu with hold | hnew
    · rw [hold.2]
      exact (h.next n d hold.1).mono himp
    · exact hnew.2

theorem inv_start : Inv start where
  index _ := rfl
  ok _ _ _ := rfl
  own _ := show Known 2 by unfold Known; decide
  valid _ _ := ⟨le_rfl, fun h => h.elim (fun h => by cases h) (absurd rfl),
    fun _ => ⟨rfl, .inr rfl⟩⟩
  self _ h := by cases h
  told := List.forall_mem_nil _
  lost := List.forall_mem_nil _
  next _ _ h := by cases h

theorem Inv.step (h : s.Inv) (hi : s.Safe i) (hu : s.Unwrapped i) {t : AodvNetwork} {o : Unit}
    (hs : s.step i = some (t, o)) : t.Inv := by
  have hown := hu (t, o) hs
  rw [AodvNetwork.step] at hs
  split_ifs at hs
  · cases hs
    exact h
  · obtain ⟨r, hr, he⟩ := Option.map_eq_some_iff.mp hs
    cases he
    refine h.next_inv hi (handle_handled (h.ok i.n) hr) ?_
    dsimp only at hown
    rwa [Function.update_self] at hown

/-- `j` is the next hop of `i` for a destination. -/
def NextHop (s : AodvNetwork) (d i j : ℤ) : Prop :=
  ((s.node i).rt d).rt_flags = .RTF_UP ∧ ((s.node i).rt d).rt_nexthop = j

/-- Along the next hops numbers grow, or hop counts fall. -/
theorem Inv.next_hops (h : s.Inv) {d i j : ℤ} (hij : Relation.TransGen (s.NextHop d) i j) :
    j = d ∨ (s.core i d).seqno < (s.core j d).seqno ∨
      (s.core i d).seqno = (s.core j d).seqno ∧ (s.core j d).hops < (s.core i d).hops := by
  have hone : ∀ {i j : ℤ}, s.NextHop d i j → j = d ∨ (s.core i d).seqno < (s.core j d).seqno ∨
      (s.core i d).seqno = (s.core j d).seqno ∧ (s.core j d).hops < (s.core i d).hops := by
    rintro i _ ⟨hup, rfl⟩
    obtain ⟨-, hpos, -, hst⟩ := h.next i d hup
    refine hst.imp id fun hb => ?_
    simp only [Core.Better, not_or, not_and, not_lt] at hb
    change (s.core i d).seqno < (s.core (s.core i d).nexthop d).seqno ∨
      (s.core i d).seqno = (s.core (s.core i d).nexthop d).seqno ∧
        (s.core (s.core i d).nexthop d).hops < (s.core i d).hops
    omega
  induction hij with
  | single hij => exact hone hij
  | tail _ hjk ih =>
    rcases ih with rfl | ih
    · exact absurd hjk.1 (h.self _)
    · refine (hone hjk).imp id fun hk => ?_
      omega

theorem Inv.acyclic (h : s.Inv) (d i : ℤ) : ¬ Relation.TransGen (s.NextHop d) i i := by
  intro hcycle
  rcases h.next_hops hcycle with rfl | hlt
  · obtain ⟨j, hij, -⟩ := Relation.TransGen.head'_iff.mp hcycle
    exact h.self i hij.1
  · omega

instance (s : AodvNetwork) (i : Input) : Decidable (s.Unwrapped i) :=
  inferInstanceAs (Decidable (∀ _ ∈ _, _))

instance (a : AodvAgent) : DecidablePred (Heeds a)
  | .request _ _ _ => inferInstanceAs (Decidable (_ → _))
  | .reply _ _ _ _ => inferInstanceAs (Decidable (_ → _ ∧ _))
  | .error _ _ => inferInstanceAs (Decidable True)
  | .hello _ => inferInstanceAs (Decidable True)

instance (air : List Msg) (a : AodvAgent) : DecidablePred (Careful air a)
  | .deliver _ => inferInstanceAs (Decidable (∀ _ ∈ _, _))
  | .repair _ => inferInstanceAs (Decidable (_ ≠ _))
  | .data _ => inferInstanceAs (Decidable True)
  | .failed _ _ => inferInstanceAs (Decidable True)
  | .rt_purge _ => inferInstanceAs (Decidable True)
  | .id_purge => inferInstanceAs (Decidable True)
  | .nb_purge _ => inferInstanceAs (Decidable True)
  | .hello => inferInstanceAs (Decidable True)

instance (s : AodvNetwork) (i : Input) : Decidable (s.Safe i) :=
  inferInstanceAs (Decidable (Careful _ _ _))

/-- A packet of the source for the destination, as it is after some hops. -/
def packet (saddr daddr : ℤ) (num_forwards : ℕ) : Ip :=
  ⟨saddr, daddr, 30, true, false, num_forwards⟩

/-- Node 1 asks for node 3, and node 2 passes on what they say. -/
def askInputs : List Input :=
  [⟨1, 0, 1 / 10, .data (packet 1 3 0)⟩, ⟨2, 0, 1 / 10, .deliver 0⟩, ⟨3, 0, 1 / 10, .deliver 1⟩,
    ⟨2, 0, 1 / 10, .deliver 2⟩, ⟨1, 0, 1 / 10, .deliver 3⟩]

end AodvNetwork

end Ns2
