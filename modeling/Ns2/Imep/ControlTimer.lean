import Ns2.Imep.Aggregation

/-! How the control timer empties the queues: packet after packet, until nothing is left. -/

namespace Ns2

namespace ImepQueues

/-- `num_acks + num_hellos + num_objects` -/
def pending (w : ImepQueues) : ℕ :=
  w.ackQueue.length + w.helloQueue.length + w.objectQueue.length

/-- How a call of `handlerControlTimer` can end. -/
inductive ControlEnd where
  | returned (sent : List ImepPacket) (w : ImepQueues)
  | aborted

/-- `none` is a call that is still at it after so many packets. -/
def handlerControlTimer (now : ℚ) :
    ℕ → List ImepPacket → ImepQueues → Option ControlEnd
  | 0, _, _ => none
  | fuel + 1, sent, w =>
    if 0 < w.pending then
      (w.makePacket now).elim (some .aborted) fun r =>
        if 0 < r.2.pending then handlerControlTimer now fuel (sent ++ [r.1]) r.2
        else some (.returned (sent ++ [r.1]) r.2)
    else some .aborted

def Returns (now : ℚ) (w : ImepQueues) : Prop :=
  ∃ fuel sent w', handlerControlTimer now fuel [] w = some (.returned sent w')

def Aborts (now : ℚ) (w : ImepQueues) : Prop :=
  ∃ fuel, handlerControlTimer now fuel [] w = some .aborted

/-- Every object has its place in a packet of its own. -/
def ObjectsFit (w : ImepQueues) : Prop :=
  ∀ t ∈ w.objectQueue, sizeofHdrImep + imepObjectBlockSize + w.getResponseListSize +
    (imepObjectSize + toraHeaderLength t.th_type) ≤ imepHdrLen

/-- The hellos that go with the last acks. -/
def spareHellos (acks : ℕ) : ℕ := if acks = 0 then 0 else 124 - 2 * ((acks - 1) % 62 + 1)

/-- Behind 125 hellos there is room for half of the head of an object block. -/
def Overfull (now : ℚ) (w : ImepQueues) : Prop :=
  w.objectQueue ≠ [] ∧
    spareHellos w.ackQueue.length + 125 ≤ (helloTargets now w.links w.helloQueue).length

def helloRoom (w : ImepQueues) : ℕ := (imepHdrLen - w.ackEnd - sizeofHelloBlock) / sizeofHello

/-- What one packet takes from the queues. -/
structure Round (now : ℚ) (w w' : ImepQueues) : Prop where
  acks : w'.ackQueue = w.ackQueue.drop 62
  neighbours : biLinks w'.links = biLinks w.links
  targets : helloTargets now w'.links w'.helloQueue =
    (helloTargets now w.links w.helloQueue).drop w.helloRoom
  hellos : w'.helloQueue.length ≤ w.helloQueue.length
  shrinks : w.ackQueue = [] → w.helloQueue ≠ [] → w'.helloQueue.length < w.helloQueue.length
  objects : w.objectQueue = w.objectsPut now ++ w'.objectQueue

theorem helloLoop_targets (now : ℚ) (p : ImepPacket) (links : List ImepLink) (hello n : ℕ)
    (q : List ImepAddr) :
    helloTargets now (helloLoop now p links hello n q).2.1 (helloLoop now p links hello n q).2.2.2 =
      (helloTargets now links q).drop ((imepHdrLen - p.imep_length) / sizeofHello) := by
  induction q generalizing p links hello n with
  | nil => simp [helloLoop, helloTargets]
  | cons a q ih =>
    by_cases hfull : p.imep_length + sizeofHello > imepHdrLen
    · have hzero : (imepHdrLen - p.imep_length) / sizeofHello = 0 := by
        simp only [sizeofHello, imepHdrLen] at hfull ⊢
        omega
      simp [helloLoop, hfull, hzero]
    · have hroom : (imepHdrLen - p.imep_length) / sizeofHello =
          (imepHdrLen - (p.imep_length + sizeofHello)) / sizeofHello + 1 := by
        simp only [sizeofHello, imepHdrLen] at hfull ⊢
        omega
      cases hl : findLink links a with
      | none => simpa [helloLoop, hfull, hl, helloTargets] using ih p links hello n
      | some l =>
        by_cases hecho : now = l.last_echo_
        · simpa [helloLoop, hfull, hl, helloTargets, hecho] using ih p links hello n
        · simp [helloLoop, hfull, hl, helloTargets, hecho, ih, hroom]

theorem helloLoop_length (now : ℚ) (p : ImepPacket) (links : List ImepLink) (hello n : ℕ)
    (q : List ImepAddr) : (helloLoop now p links hello n q).2.2.2.length ≤ q.length := by
  obtain ⟨_, taken, -, h, -⟩ := helloLoop_spec now p links hello n q
  have := congrArg List.length h
  rw [List.length_append] at this
  omega

/-- Where there is room, the first hello is gone, be it for a neighbour or not. -/
theorem helloLoop_shrinks (now : ℚ) (p : ImepPacket) (links : List ImepLink) (hello n : ℕ)
    {q : List ImepAddr} (hq : q ≠ []) (hroom : p.imep_length + sizeofHello ≤ imepHdrLen) :
    (helloLoop now p links hello n q).2.2.2.length < q.length := by
  obtain ⟨a, q, rfl⟩ := List.exists_cons_of_ne_nil hq
  rw [List.length_cons, Nat.lt_succ_iff, helloLoop, if_neg (by omega)]
  split
  · split_ifs
    · exact helloLoop_length ..
    · exact helloLoop_length ..
  · exact helloLoop_length ..

variable {now : ℚ} {w w' : ImepQueues} {q : ImepPacket}

theorem aggregateHead_eq (now : ℚ) (w : ImepQueues) :
    ∃ p : ImepPacket, p.imep_length = w.ackEnd ∧ w.aggregateHead now =
      aggregateHelloBlock now { w with ackQueue := w.ackQueue.drop 62 } p := by
  obtain ⟨-, h2, -, -, -, h6⟩ := aggregateAckBlock_spec w
  exact ⟨_, h2, by rw [aggregateHead, h6]⟩

/-- The hellos behind the head: those that had no room, and at least one less if any had. -/
theorem aggregateHead_hellos (now : ℚ) (w : ImepQueues) :
    helloTargets now (w.aggregateHead now).2.links (w.aggregateHead now).2.helloQueue =
        (helloTargets now w.links w.helloQueue).drop w.helloRoom ∧
      (w.aggregateHead now).2.ackQueue = w.ackQueue.drop 62 ∧
      (w.ackQueue = [] → w.helloQueue ≠ [] →
        (w.aggregateHead now).2.helloQueue.length < w.helloQueue.length) := by
  obtain ⟨p, hlen, hrun⟩ := aggregateHead_eq now w
  rw [hrun, aggregateHelloBlock, helloRoom, ← hlen]
  dsimp only
  split_ifs with hq hfull hn
  · simp [hq, helloTargets]
  · have hnone : (imepHdrLen - p.imep_length - sizeofHelloBlock) / sizeofHello = 0 := by
      simp only [imepHdrLen, sizeofHelloBlock, sizeofHello] at hfull ⊢
      omega
    refine ⟨by simp [hnone], rfl, fun hacks => absurd hfull ?_⟩
    rw [hlen, ackEnd, acksPut, hacks]
    decide
  all_goals
    refine ⟨?_, rfl, fun _ _ => helloLoop_shrinks _ _ _ _ _ hq ?_⟩
    · rw [Nat.sub_sub]
      exact helloLoop_targets ..
    · dsimp only
      omega

theorem aggregateObjectBlock_frame {p : ImepPacket} (h : w.aggregateObjectBlock p = some (q, w')) :
    w'.links = w.links ∧ w'.ackQueue = w.ackQueue ∧ w'.helloQueue = w.helloQueue := by
  rw [aggregateObjectBlock] at h
  dsimp only at h
  split_ifs at h
  · simp [← (Prod.mk.inj (Option.some.inj h)).2]
  · simp [← (Prod.mk.inj (Option.some.inj h)).2]
  · simp [← (Prod.mk.inj (Option.some.inj h)).2]
  · rw [createResponseList, Option.bind_eq_some_iff] at h
    obtain ⟨ob, -, h⟩ := h
    cases ob with
    | none => simp [← (Prod.mk.inj (Option.some.inj h)).2]
    | some ob => simp [← (Prod.mk.inj (Option.some.inj h)).2]

theorem makePacket_round (h : w.makePacket now = some (q, w')) : Round now w w' := by
  have hready := ready now w
  obtain ⟨h1, h2, h3⟩ := aggregateHead_hellos now w
  rw [makePacket_head] at h
  obtain ⟨h4, h5, h6⟩ := aggregateObjectBlock_frame h
  obtain ⟨taken, htaken, -⟩ := hready.helloQueue
  have hlength := congrArg List.length htaken
  rw [List.length_append] at hlength
  refine ⟨h5.trans h2, ?_, by rw [h4, h6, h1], by rw [h6]; omega, ?_, ?_⟩
  · rw [h4, hready.links]
  · rw [h6]
    exact h3
  · by_cases hput : w.objectsPut now = []
    · rw [hput, List.nil_append]
      exact (hready.unplaced hput h).2.2.2.2
    · obtain ⟨q₂, w₂, hrun, -, -, -, hobjects⟩ := hready.placed hput
      rw [hrun] at h
      rwa [← (Prod.mk.inj (Option.some.inj h)).2]

theorem makePacket_iff (now : ℚ) (w : ImepQueues) : (∃ q w', w.makePacket now = some (q, w')) ↔
    w.objectsPut now = [] → w.objectQueue = [] ∨
      w.helloEnd now + imepObjectBlockSize ≤ imepHdrLen ∨ w.helloEnd now = imepHdrLen := by
  have hready := ready now w
  rw [makePacket_head]
  by_cases hput : w.objectsPut now = []
  · rw [hready.unplaced_iff hput]
    simp [hput]
  · obtain ⟨q, w', hrun, -⟩ := hready.placed hput
    simp [hput, hrun]

theorem ackEnd_of_nil (h : w.ackQueue = []) : w.ackEnd = 4 := by
  simp [ackEnd, acksPut, h, sizeofHdrImep]

theorem ackEnd_of_ne (h : w.ackQueue ≠ []) : w.ackEnd = 10 + 8 * min 62 w.ackQueue.length := by
  have hput : w.acksPut ≠ [] := by simpa [acksPut] using h
  rw [ackEnd, if_neg hput, acksPut, List.length_take]
  simp only [sizeofHdrImep, sizeofAckBlock, sizeofAck]
  omega

theorem helloRoom_of_nil (h : w.ackQueue = []) : w.helloRoom = 125 := by
  rw [helloRoom, ackEnd_of_nil h]
  rfl

theorem helloRoom_of_ne (h : w.ackQueue ≠ []) :
    w.helloRoom = 124 - 2 * min 62 w.ackQueue.length := by
  rw [helloRoom, ackEnd_of_ne h]
  simp only [imepHdrLen, sizeofHelloBlock, sizeofHello]
  omega

theorem helloEnd_eq (now : ℚ) (w : ImepQueues) : ∃ n,
    n = min w.helloRoom (helloTargets now w.links w.helloQueue).length ∧
      w.helloEnd now = w.ackEnd + if n = 0 then 0 else 6 + 4 * n := by
  refine ⟨_, rfl, ?_⟩
  have hlen : (w.hellosPut now).length =
      min w.helloRoom (helloTargets now w.links w.helloQueue).length := by
    rw [hellosPut, List.length_take, helloRoom]
  rw [helloEnd, ← hlen]
  simp [sizeofHelloBlock, sizeofHello]

theorem objectsPut_nil (h : 499 ≤ w.helloEnd now) : w.objectsPut now = [] := by
  cases hq : w.objectQueue with
  | nil => rw [objectsPut, hq, fitting]
  | cons t q =>
    have := toraHeaderLength_pos t.th_type
    rw [objectsPut, hq, fitting, if_neg]
    simp only [imepObjectBlockSize, imepObjectSize, imepHdrLen]
    omega

/-- The assertion fails for 125 hellos without acks before them, and objects behind. -/
theorem makePacket_none_iff :
    w.makePacket now = none ↔ Overfull now w ∧ w.ackQueue = [] := by
  have hnone : w.makePacket now = none ↔ ¬∃ q w', w.makePacket now = some (q, w') := by
    simp [Option.eq_none_iff_forall_ne_some]
  obtain ⟨n, hn, hend⟩ := helloEnd_eq now w
  rw [hnone, makePacket_iff, Overfull]
  simp only [imepObjectBlockSize, imepHdrLen]
  by_cases hacks : w.ackQueue = []
  · rw [ackEnd_of_nil hacks] at hend
    rw [helloRoom_of_nil hacks] at hn
    have hfull : ¬(w.helloEnd now + 4 ≤ 512 ∨ w.helloEnd now = 512) ↔
        125 ≤ (helloTargets now w.links w.helloQueue).length := by
      split_ifs at hend <;> omega
    have hput : 125 ≤ (helloTargets now w.links w.helloQueue).length → w.objectsPut now = [] :=
      fun h => objectsPut_nil (by have := hfull.2 h; omega)
    simp only [hacks, spareHellos, List.length_nil, if_true, Nat.zero_add, and_true]
    rw [← hfull] at hput ⊢
    tauto
  · have hroom := helloRoom_of_ne hacks
    have hpos := List.length_pos_of_ne_nil hacks
    rw [ackEnd_of_ne hacks] at hend
    have hfits : w.helloEnd now + 4 ≤ 512 ∨ w.helloEnd now = 512 := by
      split_ifs at hend <;> omega
    simp only [hacks, and_false, iff_false, not_not]
    exact fun _ => .inr hfits

theorem spareHellos_eq {acks : ℕ} (h : 0 < acks) :
    spareHellos acks = spareHellos (acks - 62) + (124 - 2 * min 62 acks) := by
  simp only [spareHellos]
  split_ifs <;> omega

theorem Round.overfull (h : Round now w w') (hover : Overfull now w') : Overfull now w := by
  obtain ⟨hobjects, hhellos⟩ := hover
  refine ⟨fun hnil => hobjects ?_, ?_⟩
  · rw [h.objects] at hnil
    exact (List.append_eq_nil_iff.1 hnil).2
  · rw [h.targets, h.acks, List.length_drop, List.length_drop] at hhellos
    by_cases hacks : w.ackQueue = []
    · rw [hacks] at hhellos ⊢
      simp only [spareHellos, List.length_nil, if_true, Nat.zero_sub] at hhellos ⊢
      omega
    · rw [helloRoom_of_ne hacks] at hhellos
      rw [spareHellos_eq (List.length_pos_of_ne_nil hacks)]
      omega

/-- As long as acks go out, hellos fill the packet and no object comes along. -/
theorem Round.overfull_of (h : Round now w w') (hacks : w.ackQueue ≠ []) (hover : Overfull now w) :
    Overfull now w' := by
  obtain ⟨hobjects, hhellos⟩ := hover
  obtain ⟨n, hn, hend⟩ := helloEnd_eq now w
  have hpos := List.length_pos_of_ne_nil hacks
  rw [spareHellos_eq hpos] at hhellos
  have hput : w.objectsPut now = [] := by
    refine objectsPut_nil ?_
    rw [helloRoom_of_ne hacks] at hn
    rw [ackEnd_of_ne hacks] at hend
    split_ifs at hend <;> omega
  refine ⟨?_, ?_⟩
  · have := h.objects
    rw [hput, List.nil_append] at this
    rwa [← this]
  · rw [h.targets, h.acks, List.length_drop, List.length_drop, helloRoom_of_ne hacks]
    omega

theorem mem_fitting {used : ℕ} {l : List ToraPacket} {t : ToraPacket} (h : t ∈ fitting used l) :
    used + (imepObjectSize + toraHeaderLength t.th_type) ≤ imepHdrLen := by
  induction l generalizing used with
  | nil => simp [fitting] at h
  | cons a l ih =>
    rw [fitting] at h
    split_ifs at h with hfit
    · rcases List.mem_cons.1 h with rfl | h
      · exact hfit
      · exact (Nat.add_le_add_right (Nat.le_add_right _ _) _).trans (ih h)
    · simp at h

theorem le_helloEnd (now : ℚ) (w : ImepQueues) : sizeofHdrImep ≤ w.helloEnd now :=
  (Nat.le_add_right _ _).trans (helloEnd_le now w).1

theorem Round.objectsFit_iff (h : Round now w w') : w'.ObjectsFit ↔ w.ObjectsFit := by
  have hsize : w'.getResponseListSize = w.getResponseListSize := by
    rw [getResponseListSize, h.neighbours, getResponseListSize]
  have hhead := le_helloEnd now w
  rw [ObjectsFit, ObjectsFit, h.objects, hsize]
  refine ⟨fun hfit t ht => ?_, fun hfit t ht => hfit t (List.mem_append_right _ ht)⟩
  rcases List.mem_append.1 ht with ht | ht
  · have := mem_fitting ht
    omega
  · exact hfit t ht

/-- A packet takes something along, unless an object waits that never fits. -/
theorem Round.pending_lt (h : Round now w w') (hfit : w.ObjectsFit) (hpos : 0 < w.pending) :
    w'.pending < w.pending := by
  have hhellos := h.hellos
  have hobjects := congrArg List.length h.objects
  rw [List.length_append] at hobjects
  rw [pending, h.acks, List.length_drop, pending]
  by_cases hacks : w.ackQueue = []
  · by_cases hq : w.helloQueue = []
    · have hend : w.helloEnd now = 4 := by
        simp [helloEnd, hellosPut, hq, helloTargets, ackEnd_of_nil hacks]
      obtain ⟨t, rest, ht⟩ : ∃ t rest, w.objectQueue = t :: rest := by
        refine List.exists_cons_of_ne_nil fun hnil => ?_
        simp [pending, hacks, hq, hnil] at hpos
      have hput : 0 < (w.objectsPut now).length := by
        have := hfit t (by simp [ht])
        rw [objectsPut, ht, fitting, if_pos (by rw [hend]; exact this)]
        exact Nat.succ_pos _
      omega
    · have := h.shrinks hacks hq
      omega
  · have := List.length_pos_of_ne_nil hacks
    omega

theorem makePacket_of_not_overfull (h : ¬Overfull now w) :
    ∃ q w', w.makePacket now = some (q, w') := by
  cases hrun : w.makePacket now with
  | none => exact absurd (makePacket_none_iff.1 hrun).1 h
  | some r => exact ⟨r.1, r.2, rfl⟩

theorem handlerControlTimer_succ {fuel : ℕ} {sent : List ImepPacket} (hpos : 0 < w.pending)
    (hrun : w.makePacket now = some (q, w')) :
    handlerControlTimer now (fuel + 1) sent w =
      if 0 < w'.pending then handlerControlTimer now fuel (sent ++ [q]) w'
      else some (.returned (sent ++ [q]) w') := by
  simp [handlerControlTimer, hpos, hrun]

theorem objectsFit_of_empty (h : ¬0 < w.pending) : w.ObjectsFit := by
  have hnil : w.objectQueue = [] := by
    rw [pending] at h
    exact List.eq_nil_of_length_eq_zero (by omega)
  simp [ObjectsFit, hnil]

theorem not_overfull_of_empty (h : ¬0 < w.pending) : ¬Overfull now w := by
  rw [pending] at h
  exact fun hover => hover.1 (List.eq_nil_of_length_eq_zero (by omega))

theorem returned_needs {fuel : ℕ} {sent sent' : List ImepPacket} {w'' : ImepQueues}
    (h : handlerControlTimer now fuel sent w = some (.returned sent' w'')) :
    0 < w.pending ∧ w.ObjectsFit ∧ ¬Overfull now w := by
  induction fuel generalizing sent w with
  | zero => cases h
  | succ fuel ih =>
    by_cases hpos : 0 < w.pending
    · cases hrun : w.makePacket now with
      | none => simp [handlerControlTimer, hpos, hrun] at h
      | some r =>
        obtain ⟨q, w'⟩ := r
        rw [handlerControlTimer_succ hpos hrun] at h
        have hround := makePacket_round hrun
        have hrest : w'.ObjectsFit ∧ ¬Overfull now w' := by
          split_ifs at h with hpos'
          · exact (ih h).2
          · exact ⟨objectsFit_of_empty hpos', not_overfull_of_empty hpos'⟩
        refine ⟨hpos, hround.objectsFit_iff.1 hrest.1, fun hover => ?_⟩
        by_cases hacks : w.ackQueue = []
        · rw [makePacket_none_iff.2 ⟨hover, hacks⟩] at hrun
          cases hrun
        · exact hrest.2 (hround.overfull_of hacks hover)
    · simp [handlerControlTimer, hpos] at h

theorem aborted_needs {fuel : ℕ} {sent : List ImepPacket}
    (h : handlerControlTimer now fuel sent w = some .aborted) :
    w.pending = 0 ∨ Overfull now w := by
  induction fuel generalizing sent w with
  | zero => cases h
  | succ fuel ih =>
    by_cases hpos : 0 < w.pending
    · refine .inr ?_
      cases hrun : w.makePacket now with
      | none => exact (makePacket_none_iff.1 hrun).1
      | some r =>
        obtain ⟨q, w'⟩ := r
        rw [handlerControlTimer_succ hpos hrun] at h
        split_ifs at h with hpos'
        · exact (makePacket_round hrun).overfull ((ih h).resolve_left (by omega))
        · cases h
    · exact .inl (by omega)

/-- The queues get shorter with every packet. -/
theorem returns_of (hpos : 0 < w.pending) (hfit : w.ObjectsFit) (hover : ¬Overfull now w)
    (sent : List ImepPacket) :
    ∃ fuel sent' w', handlerControlTimer now fuel sent w = some (.returned sent' w') := by
  induction hn : w.pending using Nat.strong_induction_on generalizing w sent with
  | _ n ih =>
    obtain ⟨q, w', hrun⟩ := makePacket_of_not_overfull hover
    have hround := makePacket_round hrun
    by_cases hpos' : 0 < w'.pending
    · obtain ⟨fuel, sent', w'', h⟩ := ih w'.pending (hn ▸ hround.pending_lt hfit hpos) hpos'
        (hround.objectsFit_iff.2 hfit) (fun h => hover (hround.overfull h)) (sent ++ [q]) rfl
      exact ⟨fuel + 1, sent', w'', by rw [handlerControlTimer_succ hpos hrun, if_pos hpos', h]⟩
    · exact ⟨1, _, _, by rw [handlerControlTimer_succ hpos hrun, if_neg hpos']⟩

theorem aborts_of (hover : Overfull now w) (sent : List ImepPacket) :
    ∃ fuel, handlerControlTimer now fuel sent w = some .aborted := by
  induction hn : w.ackQueue.length using Nat.strong_induction_on generalizing w sent with
  | _ n ih =>
    have hpos : 0 < w.pending := by
      by_contra hempty
      exact not_overfull_of_empty hempty hover
    by_cases hacks : w.ackQueue = []
    · exact ⟨1, by simp [handlerControlTimer, hpos, makePacket_none_iff.2 ⟨hover, hacks⟩]⟩
    · cases hrun : w.makePacket now with
      | none => exact absurd (makePacket_none_iff.1 hrun).2 hacks
      | some r =>
        obtain ⟨q, w'⟩ := r
        have hround := makePacket_round hrun
        have hover' := hround.overfull_of hacks hover
        have hlt : w'.ackQueue.length < n := by
          have := List.length_pos_of_ne_nil hacks
          rw [hround.acks, List.length_drop]
          omega
        obtain ⟨fuel, h⟩ := ih _ hlt hover' (sent ++ [q]) rfl
        have hpos' : 0 < w'.pending := by
          by_contra hempty
          exact not_overfull_of_empty hempty hover'
        exact ⟨fuel + 1, by rw [handlerControlTimer_succ hpos hrun, if_pos hpos', h]⟩

/-- When the handler comes to its end, and when an assertion ends it. Otherwise it makes packets
for ever. -/
theorem handlerControlTimer_ends (now : ℚ) (w : ImepQueues) :
    (Returns now w ↔ 0 < w.pending ∧ w.ObjectsFit ∧ ¬Overfull now w) ∧
      (Aborts now w ↔ w.pending = 0 ∨ Overfull now w) := by
  refine ⟨⟨fun ⟨_, _, _, h⟩ => returned_needs h, fun ⟨hpos, hfit, hover⟩ =>
    returns_of hpos hfit hover []⟩, ⟨fun ⟨_, h⟩ => aborted_needs h, ?_⟩⟩
  rintro (hempty | hover)
  · exact ⟨1, by simp [handlerControlTimer, hempty]⟩
  · exact aborts_of hover []

theorem length_zeros : (List.replicate 8 (0 : ByteRecords.Byte)).length = toraHeaderLength .qry := rfl

/-- A query among 124 neighbours. -/
def crowded : ImepQueues where
  links := (List.range 124).map fun i => ⟨BitVec.ofNat 32 i, linkBi, 0⟩
  controlSequence := 0
  ackQueue := []
  helloQueue := []
  objectQueue := [⟨.qry, List.replicate 8 0, length_zeros⟩]

theorem crowded_runs_on : ¬Returns 0 crowded ∧ ¬Aborts 0 crowded := by
  have hsize : crowded.getResponseListSize = 496 := by
    simp [getResponseListSize, biLinks, crowded, List.filter_map, Function.comp_def,
      sizeofResponse]
  constructor
  · rintro ⟨fuel, sent, w', h⟩
    have := (returned_needs h).2.1 ⟨.qry, List.replicate 8 0, length_zeros⟩ List.mem_cons_self
    rw [hsize] at this
    exact absurd this (by decide)
  · rintro ⟨fuel, h⟩
    rcases aborted_needs h with h | h
    · exact absurd h (by decide)
    · exact absurd h.2 (by decide)

end ImepQueues

end Ns2
