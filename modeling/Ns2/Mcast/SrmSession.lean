import Ns2.Mcast.SrmRequests
import Ns2.Mcast.SrmSsm

/-! Session messages, as their readers take them apart: which of them give back the tuples that were
written. -/

namespace Ns2

open WordRecords

/-- The four words of a member in the message of the plain agent. -/
def sessionFormat : Format ℤ SessionInfo where
  size := 4
  write b := [b.sender, b.dataCnt, b.rtime, b.stime]
  read data off := ⟨data off, data (off + 1), data (off + 2), data (off + 3)⟩
  length_write _ := rfl
  read_write data off b h := by
    have h0 := h 0 _ rfl
    have h1 := h 1 _ rfl
    have h2 := h 2 _ rfl
    have h3 := h 3 _ rfl
    rw [Nat.add_zero] at h0
    rw [h0, h1, h2, h3]

/-- The five words with the representative. -/
def ssmFormat : Format ℤ (SsmBlock ℤ) where
  size := 5
  write := SsmBlock.words
  read data off := ⟨data off, data (off + 1), data (off + 2), data (off + 3), data (off + 4)⟩
  length_write _ := rfl
  read_write data off b h := by
    have h0 := h 0 _ rfl
    have h1 := h 1 _ rfl
    have h2 := h 2 _ rfl
    have h3 := h 3 _ rfl
    have h4 := h 4 _ rfl
    rw [Nat.add_zero] at h0
    rw [h0, h1, h2, h3, h4]

/-- The first block and those of the loop are all blocks of the message. -/
theorem first_cons_rest {β : Type*} (f : ℕ → β) {n : ℕ} (h : 0 < n) :
    f 0 :: (List.range' 1 (n - 1)).map f = (List.range n).map f := by
  obtain ⟨n, rfl⟩ := Nat.exists_eq_succ_of_ne_zero h.ne'
  rw [List.range_eq_range', List.range'_succ]
  rfl

namespace SRMAgent

/-- What `send_sess` says of the members; the own entry has the time of sending. -/
def sessBlocks (a : SRMAgent) (now : ℤ) : List SessionInfo :=
  (a.entries.map fun sp => ⟨sp.sender_, sp.ldata_, sp.recvTime_, sp.sendTime_⟩).modifyHead
    fun b => { b with stime := now }

theorem Listed.entries {a : SRMAgent} (h : a.Listed) :
    ∃ own rest, a.entries = own :: rest ∧ own.sender_ = a.addr ∧
      a.entries.length = a.sip_.length := by
  obtain ⟨l, hl⟩ := List.head?_eq_some_iff.mp h.head
  have hlen : ∀ l : List ℤ, (∀ s ∈ l, (a.siphash_ s).isSome) →
      (l.filterMap a.siphash_).length = l.length := by
    intro l hl
    induction l with
    | nil => rfl
    | cons s l ih =>
      obtain ⟨sp, hs⟩ := Option.isSome_iff_exists.mp (hl s List.mem_cons_self)
      rw [List.filterMap_cons_some hs, List.length_cons, List.length_cons,
        ih fun t ht => hl t (List.mem_cons_of_mem s ht)]
  have hmem : a.addr ∈ a.sip_ := by simp [hl]
  obtain ⟨own, hown⟩ := Option.isSome_iff_exists.mp ((h.mem _).mp hmem)
  refine ⟨own, l.filterMap a.siphash_, ?_, h.sender _ own hown, ?_⟩
  · rw [SRMAgent.entries, hl, List.filterMap_cons_some hown]
  · rw [SRMAgent.entries, hlen _ fun s hs => (h.mem s).mp hs]

end SRMAgent

/-- A session message by its writer. -/
inductive Session
  | sess (a : SRMAgent)
  | glb (a : SSMSRMAgent)
  | loc (a : SSMSRMAgent)
  | rep (a : SSMSRMAgent)

namespace SSMSRMAgent

/-- What a writer says of the members it chose. -/
def written (now : ℤ) (blocks : List (SsmBlock (Option ℤ))) : List (SsmBlock (Option ℤ)) :=
  blocks.modifyHead fun b => { b with stime := some now }

/-- The blocks that a reader takes from a message, `hdr` words behind its start. -/
def blocksRead (hdr : ℕ) (data : ℕ → ℤ) : List (SsmBlock (Option ℤ)) :=
  (GET_SESSION_INFO hdr data 0 :: restBlocks hdr data).map (SsmBlock.map some)

end SSMSRMAgent

section

open SSMSRMAgent

/-- The time of sending lies in the first block. -/
theorem layout_cons (type now : ℤ) (b : SsmBlock (Option ℤ)) (bs : List (SsmBlock (Option ℤ))) :
    layout type now (b :: bs) = [some ((b :: bs).length : ℤ), some type] ++
      (written now (b :: bs)).flatMap SsmBlock.words := rfl

/-- A reader that starts behind the two words of the header. -/
theorem blocksRead_two {type now : ℤ} {b : SsmBlock (Option ℤ)} {bs : List (SsmBlock (Option ℤ))}
    {data : ℕ → ℤ} (h : Holds data (layout type now (b :: bs)))
    (hfull : ∀ c ∈ written now (b :: bs), c ∈ Set.range (SsmBlock.map some)) :
    blocksRead 2 data = written now (b :: bs) := by
  obtain ⟨cs, hcs⟩ : written now (b :: bs) ∈ Set.range (List.map (SsmBlock.map some)) := by
    rw [Set.range_list_map]
    exact hfull
  have hlen : cs.length = (b :: bs).length := by
    rw [← List.length_map (SsmBlock.map some), hcs]
    simp [written]
  rw [layout_cons, ← hcs] at h
  have hcount : (data 0).toNat = cs.length := by
    rw [h 0 _ rfl, hlen, Int.toNat_natCast]
  have hwords : (cs.map (SsmBlock.map some)).flatMap SsmBlock.words =
      (cs.flatMap ssmFormat.write).map some := by
    rw [List.flatMap_map, List.map_flatMap]
    rfl
  rw [hwords] at h
  have hread := ssmFormat.read_all h.stored
  have hpos : 0 < cs.length := by
    rw [hlen]
    simp
  rw [← hcs, blocksRead, restBlocks, hcount, first_cons_rest _ hpos]
  exact congrArg (List.map (SsmBlock.map some)) hread

theorem mem_range_map_some (b : SsmBlock (Option ℤ)) :
    b ∈ Set.range (SsmBlock.map (some : ℤ → Option ℤ)) ↔ b.sender.isSome ∧ b.dataCnt.isSome ∧
      b.rtime.isSome ∧ b.stime.isSome ∧ b.repid.isSome := by
  constructor
  · rintro ⟨c, rfl⟩
    exact ⟨rfl, rfl, rfl, rfl, rfl⟩
  · rintro ⟨h1, h2, h3, h4, h5⟩
    refine ⟨⟨b.sender.get h1, b.dataCnt.get h2, b.rtime.get h3, b.stime.get h4, b.repid.get h5⟩, ?_⟩
    simp [SsmBlock.map]

theorem info_full (sp : SRMinfo) : info sp ∈ Set.range (SsmBlock.map some) :=
  (mem_range_map_some _).mpr ⟨rfl, rfl, rfl, rfl, rfl⟩

/-- The time of sending fills a gap in the first block. -/
theorem written_full (now : ℤ) {b : SsmBlock (Option ℤ)} {bs : List (SsmBlock (Option ℤ))}
    (hb : b.sender.isSome ∧ b.dataCnt.isSome ∧ b.rtime.isSome ∧ b.repid.isSome) :
    (∀ c ∈ written now (b :: bs), c ∈ Set.range (SsmBlock.map some)) ↔
      ∀ c ∈ bs, c ∈ Set.range (SsmBlock.map some) := by
  have hhead : { b with stime := some now } ∈ Set.range (SsmBlock.map (some : ℤ → Option ℤ)) :=
    (mem_range_map_some _).mpr ⟨hb.1, hb.2.1, hb.2.2.1, rfl, hb.2.2.2⟩
  rw [written, List.modifyHead_cons, List.forall_mem_cons]
  exact and_iff_right hhead

theorem repInfo_full (sp : SRMinfo) :
    repInfo sp ∈ Set.range (SsmBlock.map some) ↔ sp.scopeFlag_ ≠ SRM_GLOBAL := by
  by_cases h : sp.scopeFlag_ = SRM_GLOBAL
  · rw [mem_range_map_some, repInfo, if_pos h]
    simp [h]
  · rw [repInfo, if_neg h]
    exact iff_of_true (info_full sp) h

theorem repInfo_head (sp : SRMinfo) : (repInfo sp).sender.isSome ∧ (repInfo sp).dataCnt.isSome ∧
    (repInfo sp).rtime.isSome ∧ (repInfo sp).repid.isSome := by
  by_cases h : sp.scopeFlag_ = SRM_GLOBAL <;> simp [repInfo, h, info]

/-- Only full blocks are read. -/
theorem blocksRead_full (hdr : ℕ) (data : ℕ → ℤ) :
    ∀ c ∈ blocksRead hdr data, c ∈ Set.range (SsmBlock.map some) := by
  intro c hc
  obtain ⟨b, -, rfl⟩ := List.mem_map.mp hc
  exact ⟨b, rfl⟩

theorem is_active_own {a : SRMAgent} {sp : SRMinfo} (h : sp.sender_ = a.addr) (now : ℤ) :
    is_active a now sp = true := by simp [is_active, h]

theorem locTest_true (a : SSMSRMAgent) (sp : SRMinfo) : (a.locTest sp).1 = true := by
  rw [locTest]
  split_ifs
  · rfl
  · simp [SRMinfo.SELF_DISTANCE]

end

namespace Session

open SSMSRMAgent in
/-- Whenever the message is sent, and whatever else is in the memory, the reader gets back the tuples
that were written. -/
def Decoded : Session → Prop
  | sess a => ∀ now data, Holds data ((a.sessWords now).map some) →
      SRMAgent.GET_SESSION_INFO data 0 :: SRMAgent.restBlocks data = a.sessBlocks now
  | glb a => ∀ now data, Holds data (a.send_glb_sess now).2.words →
      blocksRead 1 data = written now ((a.glbMembers now).map info)
  | loc a => ∀ now data, Holds data (a.send_loc_sess now).2.words →
      blocksRead 2 data = written now ((a.locMembers now).map info)
  | rep a => ∀ now m, (a.send_rep_sess now).2 = some m → ∀ data, Holds data m.words →
      blocksRead 2 data = written now (a.repMembers.map repInfo)

/-- The members are as an agent has them; the plain one counts all of them. -/
def Listed : Session → Prop
  | sess a => a.Listed ∧ a.groupSize_ = a.sip_.length
  | glb a => a.base.Listed
  | loc a => a.base.Listed
  | rep a => a.base.Listed

/-- The message is not a global one, and one for the members of a representative is either not sent or
has no global member but the first. -/
def Plain : Session → Prop
  | sess _ => True
  | glb _ => False
  | loc _ => True
  | rep a => (∀ sp ∈ a.repMembers, sp.scopeFlag_ = SSMSRMAgent.SRM_GLOBAL) ∨
      ∀ sp ∈ a.repMembers.tail, sp.scopeFlag_ ≠ SSMSRMAgent.SRM_GLOBAL

section

open SSMSRMAgent

theorem sess_decoded {a : SRMAgent} (h : a.Listed) (hcount : a.groupSize_ = a.sip_.length) :
    (sess a).Decoded := by
  intro now data hdata
  obtain ⟨own, rest, hentries, -, hlen⟩ := h.entries
  have hblocks : a.sessBlocks now = ⟨own.sender_, own.ldata_, own.recvTime_, now⟩ ::
      rest.map fun sp => ⟨sp.sender_, sp.ldata_, sp.recvTime_, sp.sendTime_⟩ := by
    rw [SRMAgent.sessBlocks, hentries]
    rfl
  have hwords : (a.sessWords now).map some =
      [some a.groupSize_] ++ ((a.sessBlocks now).flatMap sessionFormat.write).map some := by
    rw [SRMAgent.sessWords, hblocks, hentries, List.flatMap_cons, List.flatMap_cons,
      List.flatMap_map]
    rfl
  rw [hwords] at hdata
  have hn : (data 0).toNat = (a.sessBlocks now).length := by
    rw [hdata 0 _ rfl, hcount, ← hlen, Int.toNat_natCast]
    simp [SRMAgent.sessBlocks]
  have hpos : 0 < (a.sessBlocks now).length := by simp [hblocks]
  rw [SRMAgent.restBlocks, hn, first_cons_rest _ hpos]
  exact sessionFormat.read_all hdata.stored

/-- The type is read for the sender, and every word behind it for the one that follows. -/
theorem not_glb_decoded {a : SSMSRMAgent} (h : a.base.Listed) : ¬ (glb a).Decoded := by
  obtain ⟨own, rest, hentries, hown, -⟩ := h.entries
  intro hd
  have hmembers : a.glbMembers (own.recvTime_ + 1) = own :: rest.filter fun sp =>
      (sp.senderFlag_ != 0 || sp.scopeFlag_ == SRM_GLOBAL || sp.sender_ == a.base.addr) &&
        is_active a.base (own.recvTime_ + 1) sp := by
    rw [glbMembers, hentries, List.filter_cons_of_pos]
    simp [hown, is_active_own hown]
  have hread := hd (own.recvTime_ + 1) _ (holds_fill _ 0)
  rw [send_glb_sess, hmembers] at hread
  have hhead := congrArg List.head? hread
  have hst := congrArg SsmBlock.stime (Option.some.inj hhead)
  have heq := Option.some.inj (show some own.recvTime_ = some (own.recvTime_ + 1) from hst)
  omega

theorem loc_decoded {a : SSMSRMAgent} (h : a.base.Listed) : (loc a).Decoded := by
  obtain ⟨own, rest, hentries, hown, -⟩ := h.entries
  intro now data hdata
  have hmembers : a.locMembers now = own :: rest.filter fun sp =>
      (a.locTest sp).1 && is_active a.base now sp := by
    rw [locMembers, hentries, List.filter_cons_of_pos]
    simp [locTest_true, is_active_own hown]
  rw [send_loc_sess, hmembers] at hdata
  rw [hmembers]
  refine blocksRead_two hdata ((written_full now ⟨rfl, rfl, rfl, rfl⟩).mpr fun c hc => ?_)
  obtain ⟨sp, -, rfl⟩ := List.mem_map.mp hc
  exact info_full sp

theorem rep_decoded_iff (a : SSMSRMAgent) : (rep a).Decoded ↔ (rep a).Plain := by
  have hlocal : (a.repMembers.filter fun sp => sp.scopeFlag_ != SRM_GLOBAL).length ≤ 0 ↔
      ∀ sp ∈ a.repMembers, sp.scopeFlag_ = SRM_GLOBAL := by
    simp [List.filter_eq_nil_iff]
  by_cases hsent : ∀ sp ∈ a.repMembers, sp.scopeFlag_ = SRM_GLOBAL
  · refine iff_of_true (fun now m hm => ?_) (.inl hsent)
    rw [send_rep_sess, if_pos (hlocal.mpr hsent)] at hm
    cases hm
  · have hm : ∀ now, (a.send_rep_sess now).2 = some ⟨a.rep_sessCtr_ + 1, a.repid_, a.localScope_,
        layout SRM_RINFO now (a.repMembers.map repInfo)⟩ := fun now => by
      rw [send_rep_sess, if_neg (fun hl => hsent (hlocal.mp hl))]
    cases hmembers : a.repMembers with
    | nil => simp [hmembers] at hsent
    | cons own rest =>
      have hfull : ∀ now, (∀ c ∈ written now ((own :: rest).map repInfo),
          c ∈ Set.range (SsmBlock.map some)) ↔ ∀ sp ∈ rest, sp.scopeFlag_ ≠ SRM_GLOBAL := by
        intro now
        rw [List.map_cons, written_full now (repInfo_head own)]
        simp only [List.forall_mem_map, repInfo_full]
      rw [hmembers] at hsent hm
      constructor
      · intro hd
        have hread := hd 0 _ (hm 0) _ (holds_fill _ 0)
        have hb := blocksRead_full 2
          (fill (layout SRM_RINFO 0 ((own :: rest).map repInfo)) 0)
        rw [hread, hmembers] at hb
        exact .inr (by rw [hmembers]; exact (hfull 0).mp hb)
      · rintro (hall | htail)
        · rw [hmembers] at hall
          exact absurd hall hsent
        · intro now m hmm data hdata
          rw [hm now] at hmm
          obtain rfl := Option.some.inj hmm
          rw [hmembers]
          rw [hmembers] at htail
          exact blocksRead_two hdata ((hfull now).mpr htail)

/-- Which session messages are read as they were written. -/
theorem decoded_iff (s : Session) (h : s.Listed) : s.Decoded ↔ s.Plain := by
  cases s with
  | sess a => exact iff_of_true (sess_decoded h.1 h.2) trivial
  | glb a => exact iff_of_false (not_glb_decoded h) id
  | loc a => exact iff_of_true (loc_decoded h) trivial
  | rep a => exact rep_decoded_iff a

/-- An agent that knows nobody but itself. -/
def alone : SSMSRMAgent where
  base := SRMAgent.start (7, SRM_GLOBAL) 7
  glb_sessCtr_ := -1
  loc_sessCtr_ := -1
  rep_sessCtr_ := -1
  scopeFlag_ := SRM_GLOBAL
  groupScope_ := 32
  localScope_ := 2
  repid_ := 7

theorem decoded_iff_alone : (loc alone).Decoded :=
  (decoded_iff (loc alone) (SRMAgent.start_listed (7, SRM_GLOBAL) 7)).mpr trivial

theorem glb_misread : blocksRead 1 (fill (alone.send_glb_sess 5000).2.words 0) =
      [⟨some 2, some 7, some (-1), some 0, some 5000⟩] ∧
    written 5000 ((alone.glbMembers 5000).map info) =
      [⟨some 7, some (-1), some 0, some 5000, some 7⟩] ∧
    ¬ (glb alone).Decoded :=
  ⟨by decide, by decide, fun h => absurd (h 5000 _ (holds_fill _ 0)) (by decide)⟩

end

end Session

end Ns2
