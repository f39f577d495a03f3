import Ns2.Aodv.AodvLoops

/-! The sequence numbers of a network of AODV nodes: nobody knows a destination under a number that
it has not given itself, except for one more when a route to it is lost. -/

namespace Ns2

namespace AodvAgent

/-- An entry for a destination with a number of its own. -/
structure Core.Below (a : Core) (own : ℕ) : Prop where
  entry : a.seqno ≤ own + 1
  route : a.flags = .RTF_UP ∨ a.hops ≠ infinity → a.seqno % 2 = 0

theorem Core.Below.mono {a : Core} {k l : ℕ} (h : a.Below k) (hkl : k ≤ l) : a.Below l :=
  ⟨h.entry.trans (Nat.add_le_add_right hkl 1), h.route⟩

/-- A number that was heard is one of the destination's own, one that was reported lost may be the
one after it. -/
def Cause.Below (own : ℤ → ℕ) : Cause → Prop
  | .heard _ d k _ _ => k % 2 = 0 ∧ k ≤ own d
  | .lost _ l => ∀ x ∈ l, x.2 ≤ own x.1 + 1
  | _ => True

/-- Routes are lost under the number that follows. -/
theorem plus_one_below {k own : ℕ} (hk : k ≤ own + 1) (heven : k % 2 = 0) (hown : Own own) :
    plus k 1 ≤ own + 1 := by
  obtain ⟨h1, h2⟩ := hown
  rw [plus]
  omega

theorem Move.below {c : Cause} {d : ℤ} {a b : Core} {own : ℤ → ℕ} (h : Move c d a b)
    (hc : c.Below own) (hown : Own (own d)) (ha : a.Below (own d)) : b.Below (own d) := by
  cases h with
  | learn => exact ⟨hc.2.trans (Nat.le_succ _), fun _ => hc.1⟩
  | lose hl => exact ⟨hc _ hl, fun h => h.elim (fun h => by cases h) (absurd rfl)⟩
  | fail _ _ heven =>
    exact ⟨plus_one_below ha.entry heven hown, fun h => h.elim (fun h => by cases h) (absurd rfl)⟩
  | expire _ hodd =>
    have heven : a.seqno % 2 = 0 := by
      rw [plus] at hodd
      omega
    exact ⟨plus_one_below ha.entry heven hown, fun h => h.elim (fun h => by cases h) (absurd rfl)⟩
  | repair => exact ⟨ha.entry, fun h => ha.route (.inr (h.resolve_left fun h => by cases h))⟩
  | down => exact ⟨ha.entry, fun h => h.elim (fun h => by cases h) (absurd rfl)⟩

end AodvAgent

namespace AodvNetwork

open AodvAgent

/-- The number that a node gives itself. -/
def own (s : AodvNetwork) (d : ℤ) : ℕ := (s.node d).seqno

/-- All that is known of a destination in the tables and on the way. -/
structure Authority (s : AodvNetwork) : Prop where
  index : ∀ n, (s.node n).index = n
  ok : ∀ n, (s.node n).Ok
  own : ∀ n, Own (s.own n)
  entry : ∀ n d, (s.core n d).Below (s.own d)
  told : ∀ m ∈ s.air, ∀ j d k h, m.announces = some (j, d, k, h) → k % 2 = 0 ∧ k ≤ s.own d
  lost : ∀ m ∈ s.air, ∀ j l, m = .error j l → ∀ x ∈ l, x.2 ≤ s.own x.1 + 1

variable {s t : AodvNetwork} {i : Input}

theorem Authority.cause (h : s.Authority) (n : ℤ) (e : AodvEvent) :
    (cause s.air (s.node n) e).Below s.own := by
  have ht := traced s.air (s.node n) e
  cases hc : AodvNetwork.cause s.air (s.node n) e with
  | heard j d k i passes =>
    obtain ⟨m, hm, hann, -⟩ := ht.heard j d k i passes hc
    exact h.told m hm j d k i hann
  | lost j l => exact h.lost _ (ht.lost j l hc) j l rfl
  | quiet => trivial
  | failed id => trivial
  | expired d => trivial
  | repair d => trivial
  | timer d => trivial

/-- The next state of the network. -/
theorem Authority.next (h : s.Authority) {n : ℤ} {e : AodvEvent} {a : AodvAgent} {out : List Msg}
    (hr : Handled (AodvNetwork.cause s.air (s.node n) e) (s.node n) (a, out))
    (hown : s.own n ≤ a.seqno) : Authority ⟨Function.update s.node n a, s.air ++ out⟩ := by
  obtain ⟨hch, hsent⟩ := hr
  dsimp only at hch hsent
  have hindex : a.index = n := hch.index.trans (h.index n)
  have hcause := h.cause n e
  generalize hc : AodvNetwork.cause s.air (s.node n) e = c at *
  have hgrow : ∀ d, s.own d ≤ AodvNetwork.own ⟨Function.update s.node n a, s.air ++ out⟩ d :=
    (Function.forall_update_iff s.node (p := fun d b => s.own d ≤ b.seqno)).mpr
      ⟨hown, fun _ _ => le_rfl⟩
  have hnode : ∀ d, (a.rt d).core.Below (s.own d) := fun d => by
    rcases hch.moves d with hsame | hmove
    · rw [hsame]
      exact h.entry n d
    · exact hmove.below hcause (h.own d) (h.entry n d)
  refine ⟨?_, ?_, ?_, ?_, fun m hm j d k i hann => ?_, fun m hm j l hl x hx => ?_⟩
  · exact (Function.forall_update_iff s.node (p := fun x b => b.index = x)).mpr
      ⟨hindex, fun x _ => h.index x⟩
  · exact (Function.forall_update_iff s.node (p := fun _ b => b.Ok)).mpr
      ⟨hch.ok, fun x _ => h.ok x⟩
  · exact (Function.forall_update_iff s.node (p := fun _ b => Own b.seqno)).mpr
      ⟨hch.seqno (h.own n), fun x _ => h.own x⟩
  · exact fun x d => ((Function.forall_update_iff s.node (p := fun _ b =>
      (b.rt d).core.Below (s.own d))).mpr ⟨hnode d, fun x _ => h.entry x d⟩ x).mono (hgrow d)
  · rcases List.mem_append.mp hm with hm | hm
    · exact (h.told m hm j d k i hann).imp id fun hk => hk.trans (hgrow d)
    · obtain ⟨rfl, hcase⟩ := (hsent m hm).announces j d k i hann
      rcases hcase with ⟨rfl, rfl, -⟩ | ⟨-, -, hhops, rfl, -⟩ | ⟨j, i, passes, rfl, -⟩
      · have hself : AodvNetwork.own ⟨Function.update s.node n a, s.air ++ out⟩ a.index =
            a.seqno := by
          rw [hindex]
          exact congrArg AodvAgent.seqno (Function.update_self ..)
        exact ⟨(hch.seqno (h.own n)).1, hself.ge⟩
      · have heven : (a.rt d).rt_seqno % 2 = 0 := (hnode d).route (.inr hhops)
        have hle : (a.rt d).rt_seqno ≤ s.own d + 1 := (hnode d).entry
        have hpar := (h.own d).1
        exact ⟨heven, le_trans (by omega) (hgrow d)⟩
      · exact ⟨hcause.1, hcause.2.trans (hgrow d)⟩
  · rcases List.mem_append.mp hm with hm | hm
    · exact (h.lost m hm j l hl x hx).trans (Nat.add_le_add_right (hgrow x.1) 1)
    · rw [((hsent m hm).lost j l hl x hx).2]
      exact (hnode x.1).entry.trans (Nat.add_le_add_right (hgrow x.1) 1)

theorem authority_start : Authority start where
  index _ := rfl
  ok _ _ _ := rfl
  own _ := show Own 2 by unfold Own; decide
  entry _ _ := ⟨Nat.zero_le _, fun _ => rfl⟩
  told := List.forall_mem_nil _
  lost := List.forall_mem_nil _

theorem Authority.step (h : s.Authority) (hu : s.Unwrapped i) {o : Unit}
    (hs : s.step i = some (t, o)) : t.Authority := by
  have hown := hu (t, o) hs
  rw [AodvNetwork.step] at hs
  split_ifs at hs
  · cases hs
    exact h
  · obtain ⟨r, hr, he⟩ := Option.map_eq_some_iff.mp hs
    cases he
    refine h.next (handle_handled (h.ok i.n) hr) ?_
    dsimp only at hown
    rwa [Function.update_self] at hown

theorem authority_of_run {is : List Input} (his : Machine.Admits step Unwrapped start is)
    {os : List Unit} (hrun : Machine.run step start is = some (t, os)) : t.Authority :=
  Machine.run_invariant (I := Authority) (fun _ _ _ _ hI hi hs => hI.step hi hs) authority_start his
    hrun

/-- In every run in which no own number wraps, every number under which a destination is known, at
any node or in any message, is at most the one it gave itself last, and one more only where no route
is left. -/
theorem numbers_of_destination {is : List Input} (his : Machine.Admits step Unwrapped start is)
    {os : List Unit} (hrun : Machine.run step start is = some (t, os)) (n d : ℤ) :
    ((t.node n).rt d).rt_seqno ≤ t.own d + 1 ∧
      (((t.node n).rt d).rt_hops ≠ infinity → ((t.node n).rt d).rt_seqno ≤ t.own d) ∧
      (∀ m ∈ t.air, ∀ j k h, m.announces = some (j, d, k, h) → k ≤ t.own d) ∧
      ∀ j l, Msg.error j l ∈ t.air → ∀ k, (d, k) ∈ l → k ≤ t.own d + 1 := by
  have hall := authority_of_run his hrun
  obtain ⟨hentry, hroute⟩ := hall.entry n d
  refine ⟨hentry, fun hh => ?_, fun m hm j k h hann => (hall.told m hm j d k h hann).2,
    fun j l hm k hk => hall.lost _ hm j l rfl (d, k) hk⟩
  have heven := hroute (.inr hh)
  have hown := (hall.own d).1
  have hle : ((t.node n).rt d).rt_seqno ≤ t.own d + 1 := hentry
  change ((t.node n).rt d).rt_seqno % 2 = 0 at heven
  omega

theorem numbers_of_destination_ask : ∃ t os, Machine.run step start askInputs = some (t, os) ∧
    ((t.node 1).rt 3).rt_seqno ≤ t.own 3 + 1 := by
  have hrun : (Machine.run step start askInputs).isSome = true := by decide +kernel
  obtain ⟨⟨t, os⟩, hrun⟩ := Option.isSome_iff_exists.mp hrun
  exact ⟨t, os, hrun, (numbers_of_destination (by decide +kernel) hrun 1 3).1⟩

/-- Only the node of an event gives itself a new number. -/
theorem own_step {o : Unit} (hs : s.step i = some (t, o)) {d : ℤ} (hd : d ≠ i.n) :
    t.own d = s.own d := by
  rw [step] at hs
  split_ifs at hs
  · cases hs
    rfl
  · obtain ⟨r, -, he⟩ := Option.map_eq_some_iff.mp hs
    cases he
    exact congrArg AodvAgent.seqno (Function.update_of_ne hd ..)

/-- When a node gives itself a new number, no route to it is as new, whatever it has come through:
what the node says with the new number replaces all of them. -/
theorem new_number_beats_all {is : List Input} (his : Machine.Admits step Unwrapped start is)
    {os : List Unit} (hrun : Machine.run step start is = some (s, os)) (hu : s.Unwrapped i)
    {o : Unit} (hs : s.step i = some (t, o)) {d : ℤ} (hnew : t.own d ≠ s.own d) (n : ℤ)
    (hops : ℕ) : ((s.node n).rt d).Better (t.own d) hops := by
  have hbefore := authority_of_run his hrun
  have hafter := hbefore.step hu hs
  obtain rfl : d = i.n := by_contra fun hd => hnew (own_step hs hd)
  have hle : s.own i.n ≤ t.own i.n := hu (t, o) hs
  have hentry : ((s.node n).rt i.n).rt_seqno ≤ s.own i.n + 1 := (hbefore.entry n i.n).entry
  obtain ⟨heven, -⟩ := hbefore.own i.n
  obtain ⟨heven', -⟩ := hafter.own i.n
  exact .inl (by omega)

theorem new_number_beats_all_ask : ∃ s os t o,
    Machine.run step start (askInputs.take 2) = some (s, os) ∧
      s.step ⟨3, 0, 1 / 10, .deliver 1⟩ = some (t, o) ∧ ((s.node 2).rt 3).Better (t.own 3) 0 := by
  have hrun : ((Machine.run step start (askInputs.take 2)).bind fun r =>
      (r.1.step ⟨3, 0, 1 / 10, .deliver 1⟩).map fun q =>
        (decide (q.1.own 3 ≠ r.1.own 3), decide (r.1.Unwrapped ⟨3, 0, 1 / 10, .deliver 1⟩))) =
      some (true, true) := by decide +kernel
  obtain ⟨⟨s, os⟩, hs, hrun⟩ := Option.bind_eq_some_iff.mp hrun
  obtain ⟨⟨t, o⟩, ht, hfacts⟩ := Option.map_eq_some_iff.mp hrun
  obtain ⟨hnew, hu⟩ := Prod.mk.inj hfacts
  exact ⟨s, os, t, o, hs, ht, new_number_beats_all (by decide +kernel) hs (of_decide_eq_true hu) ht
    (of_decide_eq_true hnew) 2 0⟩

end AodvNetwork

end Ns2
