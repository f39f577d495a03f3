import Ns2.Imep.ReXmitQueue

/-! The retransmission timer gives up on a packet: it brings down the links of those that have not
acked, while every link that goes down shortens the list it walks over. -/

namespace Ns2

open ByteRecords

/-- `LINK_DOWN` -/
def linkDown : ℕ := 0

/-- `RETRANS_PERIOD` -/
def retransPeriod : ℚ := 1 / 2

structure ReXmitAgent where
  links : List ImepLink
  rexmitq : ReXmitQ

namespace ReXmitAgent

open ImepQueues (findLink)

/-- `l->status() = LINK_DOWN` -/
def setDown : List ImepLink → ImepAddr → List ImepLink
  | [], _ => []
  | l :: ls, index =>
    if l.index_ = index then { l with status_ := linkDown } :: ls else l :: setDown ls index

def imepSetLinkDownStatus (s : ReXmitAgent) (index : ImepAddr) : Option ReXmitAgent :=
  match findLink s.links index with
  | none => some s
  | some _ => (s.rexmitq.purgeReXmitQ index).map fun q => ⟨setDown s.links index, q⟩

/-- What lies at `p`; a packet that was dropped is still there. -/
def memoryAt (p : ℕ) (last : ImepPacket) (q : ReXmitQ) : ImepPacket :=
  ((q.find? fun i => i.p = p).map Rexent.packet).getD last

/-- The loop over the response list at `r`. The list is no longer than its field of 5 bits can say,
so 32 rounds are enough. -/
def puntLoop (p ob r : ℕ) : ℕ → ℕ → ImepPacket → ReXmitAgent → Option ReXmitAgent
  | 0, _, _, s => some s
  | fuel + 1, i, packet, s =>
    if i < field packet.bytes (ob + 3) 5 then
      (s.imepSetLinkDownStatus (word packet.bytes (r + 4 * i))).bind fun s' =>
        puntLoop p ob r fuel (i + 1) (memoryAt p packet s'.rexmitq) s'
    else some s

def handlerReXmitTimer (now : ℚ) (s : ReXmitAgent) : Option ReXmitAgent :=
  match s.rexmitq with
  | [] => some s
  | i :: q =>
    if i.rexmits_left = 0 then
      i.packet.findObjectBlock.bind fun ob => i.packet.findResponseList.bind fun r =>
        ob.bind fun ob => puntLoop i.p ob (r.getD 0) 32 0 i.packet s
    else if i.rexmit_at ≤ now then
      let i := { i with
        rexmit_at := now + retransPeriod
        rexmits_left := i.rexmits_left - 1 }
      some ⟨s.links, ReXmitQ.insert i q⟩
    else some s

/-- The neighbours on the list that are known. -/
def known (links : List ImepLink) (l : List ImepAddr) : ℕ :=
  l.countP fun a => (findLink links a).isSome

/-- Every neighbour on the list of the packet is down when the handler is done. -/
def BringsDown (now : ℚ) (s : ReXmitAgent) (i : Rexent) : Prop :=
  ∃ s', s.handlerReXmitTimer now = some s' ∧
    ∀ a ∈ i.packet.waiting, ∀ l, findLink s'.links a = some l → l.status_ = linkDown

/-- A neighbour is met by the loop if the known ones before it have not shortened the list to where
it stands. -/
def Met (s : ReXmitAgent) (l : List ImepAddr) (a : ImepAddr) : Prop :=
  ∃ j, l[j]? = some a ∧ j + known s.links (l.take j) < l.length

theorem findLink_setDown (links : List ImepLink) (a b : ImepAddr) :
    findLink (setDown links b) a =
      if a = b then (findLink links a).map fun l => { l with status_ := linkDown }
      else findLink links a := by
  induction links with
  | nil => simp [setDown, findLink]
  | cons l ls ih =>
    rw [setDown]
    simp only [findLink] at ih ⊢
    by_cases hb : l.index_ = b
    · by_cases ha : l.index_ = a
      · obtain rfl : a = b := ha.symm.trans hb
        simp [hb]
      · have hab : a ≠ b := fun h => ha (hb.trans h.symm)
        simp [hb, hab, Ne.symm hab]
    · by_cases ha : l.index_ = a
      · have hab : a ≠ b := fun h => hb (ha.trans h)
        simp [ha, hab]
      · simp [hb, ha, ih]

/-- The links after the first rounds. -/
def downed (links : List ImepLink) (l : List ImepAddr) : List ImepLink := l.foldl setDown links

theorem findLink_downed (links : List ImepLink) (l : List ImepAddr) (a : ImepAddr) :
    findLink (downed links l) a =
      if a ∈ l then (findLink links a).map fun l => { l with status_ := linkDown }
      else findLink links a := by
  induction l generalizing links with
  | nil => rfl
  | cons b l ih =>
    rw [downed, List.foldl_cons, ← downed, ih, findLink_setDown]
    by_cases hb : a = b
    · by_cases ha : a ∈ l <;> simp [hb] <;> cases findLink links b <;> simp
    · simp [hb]

theorem setDown_unknown {links : List ImepLink} {a : ImepAddr} (h : findLink links a = none) :
    setDown links a = links := by
  induction links with
  | nil => rfl
  | cons l ls ih =>
    simp only [findLink, List.find?_cons] at h ih
    by_cases ha : l.index_ = a
    · simp [ha] at h
    · simp only [ha, decide_false] at h
      rw [setDown, if_neg ha, ih h]

/-- The state before the `j`-th round: the memory of the packet, and the list that is left in it. -/
structure Walk (s : ReXmitAgent) (p ob r : ℕ) (l : List ImepAddr) (j : ℕ) (packet : ImepPacket)
    (t : ReXmitAgent) : Prop where
  links : t.links = downed s.links (l.take j)
  sound : t.rexmitq.Sound
  waits : packet.Waits ob r
  queued : ∃ i ∈ t.rexmitq, i.p = p ∧ i.packet = packet
  length : packet.waiting.length + known s.links (l.take j) = l.length
  rest : ∀ k, j ≤ k → k < packet.waiting.length → packet.waiting[k]? = l[k]?

variable {s t : ReXmitAgent} {p ob r j : ℕ} {l : List ImepAddr} {packet : ImepPacket} {a : ImepAddr}

theorem memoryAt_eq {q : ReXmitQ} (hq : q.Sound) {i : Rexent} (hi : i ∈ q) (last : ImepPacket) :
    memoryAt i.p last q = i.packet := by
  have hfind : q.find? (fun k => k.p = i.p) = some i := by
    cases hrun : q.find? (fun k => k.p = i.p) with
    | none => simpa using List.find?_eq_none.1 hrun i hi
    | some k =>
      have hp : k.p = i.p := by simpa using List.find?_some hrun
      exact congrArg some (List.inj_on_of_nodup_map hq.nodup (List.mem_of_find?_eq_some hrun) hi hp)
  rw [memoryAt, hfind]
  rfl

theorem known_take_succ (links : List ImepLink) (h : l[j]? = some a) :
    known links (l.take (j + 1)) =
      known links (l.take j) + if (findLink links a).isSome then 1 else 0 := by
  rw [List.take_add_one, h, known, List.countP_append, known]
  simp [List.countP_cons]

theorem downed_take_succ (links : List ImepLink) (h : l[j]? = some a) :
    downed links (l.take (j + 1)) = setDown (downed links (l.take j)) a := by
  rw [downed, List.take_add_one, h, List.foldl_append, ← downed]
  rfl

/-- A round on a neighbour that is not known. -/
theorem Walk.unknown (h : Walk s p ob r l j packet t) (hj : l[j]? = some a)
    (ha : findLink s.links a = none) :
    t.imepSetLinkDownStatus a = some t ∧ Walk s p ob r l (j + 1) packet t := by
  have hnone : findLink t.links a = none := by
    rw [h.links, findLink_downed, ha]
    simp
  have hknown : known s.links (l.take (j + 1)) = known s.links (l.take j) := by
    rw [known_take_succ _ hj, ha]
    rfl
  refine ⟨by rw [imepSetLinkDownStatus, hnone], ?_, h.sound, h.waits, h.queued, ?_, ?_⟩
  · rw [downed_take_succ _ hj, ← h.links, setDown_unknown hnone]
  · rw [hknown]
    exact h.length
  · exact fun k hk => h.rest k (by omega)

theorem Walk.down (h : Walk s p ob r l j packet t) (hj : l[j]? = some a)
    (ha : (findLink s.links a).isSome) :
    t.imepSetLinkDownStatus a = some ⟨downed s.links (l.take (j + 1)),
      t.rexmitq.filterMap (Rexent.after a)⟩ := by
  have hsome : (findLink t.links a).isSome := by
    rw [h.links, findLink_downed]
    split_ifs <;> simpa using ha
  obtain ⟨k, hk⟩ := Option.isSome_iff_exists.1 hsome
  rw [imepSetLinkDownStatus, hk]
  simp only [ReXmitQ.purgeReXmitQ_eq h.sound, Option.map_some, h.links]
  rw [downed_take_succ _ hj]

/-- A round on a neighbour that is known, when others are left. -/
theorem Walk.shrinks (h : Walk s p ob r l j packet t) (hj : l[j]? = some a)
    (ha : (findLink s.links a).isSome) (hlt : j < packet.waiting.length)
    (htwo : packet.waiting.length ≠ 1) :
    Walk s p ob r l (j + 1) (memoryAt p packet (t.rexmitq.filterMap (Rexent.after a)))
      ⟨downed s.links (l.take (j + 1)), t.rexmitq.filterMap (Rexent.after a)⟩ := by
  obtain ⟨i, hi, rfl, rfl⟩ := h.queued
  have hat : i.packet.waiting[j]? = some a := (h.rest j le_rfl hlt).trans hj
  have hmem : a ∈ i.packet.waiting := List.mem_of_getElem? hat
  obtain ⟨packet, hpacket, hrun⟩ := ReXmitQ.after_shrinks h.waits (.inl hmem) htwo
  have hsound : ReXmitQ.Sound (t.rexmitq.filterMap (Rexent.after a)) :=
    h.sound.filterMap fun _ _ h => .inr h
  have hqueued : ({ i with packet := packet } : Rexent) ∈ t.rexmitq.filterMap (Rexent.after a) :=
    List.mem_filterMap.2 ⟨i, hi, hrun⟩
  have hmemory : memoryAt i.p i.packet (t.rexmitq.filterMap (Rexent.after a)) = packet :=
    memoryAt_eq hsound hqueued i.packet
  have hknown := known_take_succ s.links hj
  rw [if_pos ha] at hknown
  have hlen : packet.waiting.length = i.packet.waiting.length - 1 := by
    rw [hpacket.waiting, length_swapRemove]
  have hidx : i.packet.waiting.idxOf a ≤ j := by
    by_contra hgt
    have hne := List.not_of_lt_findIdx (show j < i.packet.waiting.findIdx (· == a) by
      simpa [List.idxOf] using hgt)
    simp [(List.getElem_eq_iff hlt).2 hat] at hne
  rw [hmemory]
  refine ⟨rfl, hsound, hpacket.waits, ⟨_, hqueued, rfl, rfl⟩, ?_, fun k hk hk' => ?_⟩
  · have := h.length
    omega
  · rw [← h.rest k (by omega) (by omega), hpacket.waiting, swapRemove, List.getElem?_dropLast,
      if_pos (by rw [List.length_set]; omega), List.getElem?_set_ne (by omega)]

theorem known_mono (links : List ImepLink) (l : List ImepAddr) {j k : ℕ} (h : j ≤ k) :
    known links (l.take j) ≤ known links (l.take k) :=
  (List.take_sublist_take_left h).countP_le

/-- With its last responder the packet leaves the queue, and stays as it was. -/
theorem Walk.last (h : Walk s p ob r l j packet t) (hmem : a ∈ packet.waiting)
    (hone : packet.waiting.length = 1) :
    memoryAt p packet (t.rexmitq.filterMap (Rexent.after a)) = packet := by
  obtain ⟨i, hi, rfl, rfl⟩ := h.queued
  have hnone : (t.rexmitq.filterMap (Rexent.after a)).find? (fun k => k.p = i.p) = none := by
    refine List.find?_eq_none.2 fun k hk hp => ?_
    obtain ⟨m, hm, hrun⟩ := List.mem_filterMap.1 hk
    have hmp : m.p = i.p := (ReXmitQ.after_p hrun).symm.trans (by simpa using hp)
    obtain rfl := List.inj_on_of_nodup_map h.sound.nodup hm hi hmp
    rw [ReXmitQ.after_leaves h.waits (.inl hmem) hone] at hrun
    cases hrun
  rw [memoryAt, hnone]
  rfl

/-- The loop ends behind the entries it meets, and their links are down. -/
def Ended (s : ReXmitAgent) (l : List ImepAddr) (o : Option ReXmitAgent) : Prop :=
  ∃ s' j, o = some s' ∧ s'.links = downed s.links (l.take j) ∧
    l.length ≤ j + known s.links (l.take j) ∧ ∀ k < j, k + known s.links (l.take k) < l.length

theorem Walk.ended (h : Walk s p ob r l j packet t) {fuel : ℕ} (hfuel : l.length ≤ fuel + j)
    (hmet : ∀ k < j, k + known s.links (l.take k) < l.length) :
    Ended s l (puntLoop p ob r fuel j packet t) := by
  induction fuel generalizing j packet t with
  | zero => exact ⟨t, j, rfl, h.links, by omega, hmet⟩
  | succ fuel ih =>
    have hlength := h.length
    rw [puntLoop, ← h.waits.length_waiting]
    split_ifs with hlt
    · have hjl : j < l.length := by omega
      have hj : l[j]? = some l[j] := List.getElem?_eq_getElem hjl
      have hword : word packet.bytes (r + 4 * j) = l[j] := by
        rw [← h.waits.getElem_waiting hlt]
        exact (List.getElem_eq_iff hlt).2 ((h.rest j le_rfl hlt).trans hj)
      have hmet' : ∀ k < j + 1, k + known s.links (l.take k) < l.length := fun k hk => by
        rcases Nat.lt_succ_iff_lt_or_eq.1 hk with hk | rfl
        · exact hmet k hk
        · omega
      rw [hword]
      cases ha : findLink s.links l[j] with
      | none =>
        obtain ⟨hrun, hwalk⟩ := h.unknown hj ha
        obtain ⟨i, hi, hp, hpk⟩ := h.queued
        have hmemory : memoryAt p packet t.rexmitq = packet := by
          rw [← hp, memoryAt_eq h.sound hi, hpk]
        rw [hrun, Option.bind_some, hmemory]
        exact ih hwalk (by omega) hmet'
      | some k =>
        have hsome : (findLink s.links l[j]).isSome := by rw [ha]; rfl
        rw [h.down hj hsome, Option.bind_some]
        by_cases htwo : packet.waiting.length = 1
        · have hmem : l[j] ∈ packet.waiting :=
            List.mem_of_getElem? ((h.rest j le_rfl hlt).trans hj)
          have hstop : puntLoop p ob r fuel (j + 1) packet ⟨downed s.links (l.take (j + 1)),
              t.rexmitq.filterMap (Rexent.after l[j])⟩ = some ⟨downed s.links (l.take (j + 1)),
                t.rexmitq.filterMap (Rexent.after l[j])⟩ := by
            cases fuel with
            | zero => rfl
            | succ fuel =>
              rw [puntLoop, ← h.waits.length_waiting]
              exact if_neg (by omega)
          rw [h.last hmem htwo]
          refine ⟨_, j + 1, hstop, rfl, ?_, hmet'⟩
          have := known_mono s.links l (show j ≤ j + 1 by omega)
          omega
        · exact ih (h.shrinks hj hsome hlt htwo) (by omega) hmet'
    · exact ⟨t, j, rfl, h.links, by omega, hmet⟩

/-- The exact condition for all of them to be brought down. -/
theorem bringsDown_iff (now : ℚ) (s : ReXmitAgent) (i : Rexent) (hsound : s.rexmitq.Sound)
    (hhead : s.rexmitq.head? = some i) (hleft : i.rexmits_left = 0) :
    BringsDown now s i ↔ ∀ a ∈ i.packet.waiting, ∀ l, findLink s.links a = some l →
      l.status_ ≠ linkDown → Met s i.packet.waiting a := by
  obtain ⟨q, hq⟩ := List.head?_eq_some_iff.1 hhead
  have hi : i ∈ s.rexmitq := hq ▸ List.mem_cons_self
  obtain ⟨ob, r, h⟩ := hsound.waits i hi
  have hsmall : i.packet.waiting.length < 32 := by
    rw [h.length_waiting]
    exact Nat.mod_lt _ (by norm_num)
  have hwalk : Walk s i.p ob r i.packet.waiting 0 i.packet s :=
    ⟨rfl, hsound, h, ⟨i, hi, rfl, rfl⟩, by simp [known], fun _ _ _ => rfl⟩
  obtain ⟨s', j, hrun, hlinks, hend, hmet⟩ :=
    hwalk.ended (show i.packet.waiting.length ≤ 32 + 0 by omega) (by simp)
  have hhandler : s.handlerReXmitTimer now = some s' := by
    rw [handlerReXmitTimer, hq]
    dsimp only
    rw [if_pos hleft, h.block, h.list, Option.bind_some, Option.bind_some, Option.bind_some]
    exact hrun
  have hMet : ∀ a, Met s i.packet.waiting a ↔ a ∈ i.packet.waiting.take j := by
    intro a
    rw [List.mem_iff_getElem?]
    constructor
    · rintro ⟨k, hk, hlt⟩
      refine ⟨k, ?_⟩
      have hkj : k < j := by
        by_contra hge
        have := known_mono s.links i.packet.waiting (not_lt.1 hge)
        omega
      rwa [List.getElem?_take_of_lt hkj]
    · rintro ⟨k, hk⟩
      rw [List.getElem?_take] at hk
      split_ifs at hk with hkj
      exact ⟨k, hk, hmet k hkj⟩
  rw [BringsDown, hhandler]
  simp only [Option.some.injEq, exists_eq_left', hlinks]
  refine forall₂_congr fun a ha => ?_
  rw [findLink_downed, hMet]
  cases findLink s.links a with
  | none => simp
  | some l => by_cases hmem : a ∈ i.packet.waiting.take j <;> simp [hmem]

/-- The neighbours 1 and 2 have not acked, and no transmission is left. -/
def twoWaiting : Rexent where
  rexmit_at := 0
  p := 0
  packet := {
    imep_block_flags := blockFlagObject
    imep_length := 18
    bytes := fun i => [0, 0, 0, 0, 7, 2, 1, 2, 0, 0, 0, 1, 0, 0, 0, 2, 0, 0, 0].getD i 0 }
  rexmits_left := 0

def twoNeighbours : ReXmitAgent := ⟨[⟨1, linkBi, 0⟩, ⟨2, linkBi, 0⟩], [twoWaiting]⟩

theorem twoNeighbours_sound : twoNeighbours.rexmitq.Sound :=
  ⟨by decide, fun i hi => by
    obtain rfl := List.mem_singleton.1 hi
    exact ⟨4, 11, by decide, by decide⟩⟩

theorem twoNeighbours_bringsDown_iff : twoNeighbours.rexmitq.Sound ∧
    (BringsDown 0 twoNeighbours twoWaiting ↔
      ∀ a ∈ twoWaiting.packet.waiting, ∀ l, findLink twoNeighbours.links a = some l →
        l.status_ ≠ linkDown → Met twoNeighbours twoWaiting.packet.waiting a) :=
  ⟨twoNeighbours_sound, bringsDown_iff 0 twoNeighbours twoWaiting twoNeighbours_sound rfl rfl⟩

/-- Once the first is down, the second stands where the loop has been. -/
theorem twoNeighbours_skips : ¬∀ (now : ℚ) (s : ReXmitAgent) (i : Rexent), s.rexmitq.Sound →
    s.rexmitq.head? = some i → i.rexmits_left = 0 → BringsDown now s i := by
  intro hall
  obtain ⟨s', hrun, hdown⟩ := hall 0 twoNeighbours twoWaiting twoNeighbours_sound rfl rfl
  have hmem : (2 : ImepAddr) ∈ twoWaiting.packet.waiting := by decide
  have hlinks : (twoNeighbours.handlerReXmitTimer 0).map
      (fun s => (findLink s.links 2).map ImepLink.status_) = some (some 3) := by decide
  rw [hrun, Option.map_some, Option.some.injEq, Option.map_eq_some_iff] at hlinks
  obtain ⟨l, hl, hstatus⟩ := hlinks
  have := hdown 2 hmem l hl
  rw [hstatus] at this
  exact absurd this (by decide)

end ReXmitAgent

end Ns2
