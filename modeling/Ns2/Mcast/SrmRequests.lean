import Ns2.Mcast.Srm

/-! Loss detection: every message up to the mark of its sender was delivered at first sight or is
requested once, and no assertion fails. -/

namespace Ns2

/-- Nothing above the mark is in the vector, and the vector covers the mark. -/
structure SRMinfo.Known (sp : SRMinfo) : Prop where
  sized : sp.Sized
  ldata_ge : -1 ≤ sp.ldata_
  room : sp.ldata_ < sp.received_.length
  above : ∀ k : ℕ, sp.ldata_ < k → sp.bit k = false

theorem SRMinfo.known_new (sender repid scopeFlag : ℤ) : (new sender repid scopeFlag).Known where
  sized := .inl ⟨rfl, rfl⟩
  ldata_ge := le_refl _
  room := by simp [new]
  above k _ := bit_of_length_le (by simp [new])

namespace Upcall

/-- How often a call requests a message of a sender. -/
def requests (s id : ℤ) : Upcall → ℕ
  | .request s' msgids => if s' = s then msgids.count id else 0
  | _ => 0

def delivers (s id : ℤ) : Upcall → ℕ
  | .delivered s' msgid => if s' = s ∧ msgid = id then 1 else 0
  | _ => 0

end Upcall

/-- How often a message was requested. -/
def requested (s id : ℤ) (ups : List Upcall) : ℕ := (ups.map (Upcall.requests s id)).sum

/-- How often a message was delivered at first sight. -/
def delivered (s id : ℤ) (ups : List Upcall) : ℕ := (ups.map (Upcall.delivers s id)).sum

theorem requested_append (s id : ℤ) (us vs : List Upcall) :
    requested s id (us ++ vs) = requested s id us + requested s id vs := by
  simp [requested]

theorem delivered_append (s id : ℤ) (us vs : List Upcall) :
    delivered s id (us ++ vs) = delivered s id us + delivered s id vs := by
  simp [delivered]

/-- The calls say something about exactly the messages of one sender above `lo` and up to `hi`, and
of each of these once. -/
def Covers (sender lo hi : ℤ) (ups : List Upcall) : Prop :=
  ∀ s id, delivered s id ups + requested s id ups =
    if s = sender ∧ lo < id ∧ id ≤ hi then 1 else 0

theorem covers_nil {sender lo hi : ℤ} (h : hi ≤ lo) : Covers sender lo hi [] := by
  intro s id
  rw [if_neg (by omega)]
  rfl

theorem Covers.append {sender lo mid hi : ℤ} {us vs : List Upcall} (hl : lo ≤ mid) (hh : mid ≤ hi)
    (hu : Covers sender lo mid us) (hv : Covers sender mid hi vs) :
    Covers sender lo hi (us ++ vs) := by
  intro s id
  have hu := hu s id
  have hv := hv s id
  rw [delivered_append, requested_append]
  split_ifs at hu hv ⊢ <;> omega

theorem covers_request (sender : ℤ) (i n : ℕ) :
    Covers sender ((i : ℤ) - 1) ((i : ℤ) + n - 1)
      [.request sender ((List.range' i n).map (Nat.cast : ℕ → ℤ))] := by
  intro s id
  have hnodup : ((List.range' i n).map (Nat.cast : ℕ → ℤ)).Nodup :=
    List.Nodup.map Nat.cast_injective List.nodup_range'
  have hmem : id ∈ (List.range' i n).map (Nat.cast : ℕ → ℤ) ↔
      (i : ℤ) - 1 < id ∧ id ≤ (i : ℤ) + n - 1 := by
    simp only [List.mem_map, List.mem_range'_1]
    constructor
    · rintro ⟨k, hk, rfl⟩
      omega
    · intro hk
      exact ⟨id.toNat, by omega, by omega⟩
  simp only [delivered, requested, List.map_cons, List.map_nil, List.sum_cons, List.sum_nil,
    Upcall.delivers, Upcall.requests, hnodup.count, hmem]
  grind

theorem covers_delivered (sender msgid : ℤ) :
    Covers sender (msgid - 1) msgid [.delivered sender msgid] := by
  intro s id
  simp only [delivered, requested, List.map_cons, List.map_nil, List.sum_cons, List.sum_nil,
    Upcall.delivers, Upcall.requests]
  grind

namespace SRMAgent

variable {left : Leftover}

variable (left) in
theorem missing_spec {sp : SRMinfo} (h : sp.Sized) (n : ℕ) {i : ℕ}
    (hi : i ≤ sp.received_.length) (hz : ∀ k, i ≤ k → sp.bit k = false) :
    ∃ sp', missing left sp n i = some ((List.range' i n).map (Nat.cast : ℕ → ℤ), sp') ∧
      sp.Widened sp' ∧ i + n ≤ sp'.received_.length := by
  induction n generalizing sp i with
  | zero => exact ⟨sp, rfl, ⟨rfl, h, fun _ => rfl, le_refl _⟩, hi⟩
  | succ n ih =>
    obtain ⟨sq, hq, hw, hl⟩ := SRMinfo.ifReceived_spec left.bytes h hi
    obtain ⟨sp', hm, hw', hl'⟩ := ih hw.sized (i := i + 1) hl
      (fun k hk => (hw.bits k).trans (hz k (by omega)))
    refine ⟨sp', ?_, hw.trans hw', by omega⟩
    rw [missing, hq, hz i (le_refl i)]
    simp only [Option.bind_eq_bind, Option.bind_some]
    rw [show (i : ℤ) + 1 = (i + 1 : ℕ) by norm_num, hm]
    simp [List.range'_succ]

variable (left) in
theorem request_spec {sp : SRMinfo} (h : sp.Known) (hi : ℤ) :
    ∃ ups sp', request left sp hi = some (ups, sp') ∧ sp.Widened sp' ∧
      hi < sp'.received_.length ∧ Covers sp.sender_ sp.ldata_ hi ups := by
  by_cases hlo : sp.ldata_ ≥ hi
  · refine ⟨[], sp, by rw [request, if_pos hlo], ⟨rfl, h.sized, fun _ => rfl, le_refl _⟩, ?_,
      covers_nil hlo⟩
    have := h.room
    omega
  · have hge := h.ldata_ge
    have hroom := h.room
    obtain ⟨i, hi'⟩ := Int.eq_ofNat_of_zero_le (show 0 ≤ sp.ldata_ + 1 by omega)
    obtain ⟨n, hn⟩ := Int.eq_ofNat_of_zero_le (show 0 ≤ hi - sp.ldata_ by omega)
    obtain ⟨sp', hm, hw, hl⟩ := missing_spec left h.sized n (i := i) (by omega)
      (fun k hk => h.above k (by omega))
    refine ⟨[.request sp.sender_ ((List.range' i n).map (Nat.cast : ℕ → ℤ))], sp', ?_, hw,
      by omega, ?_⟩
    · have hne : (List.range' i n).map (Nat.cast : ℕ → ℤ) ≠ [] := by
        simp only [ne_eq, List.map_eq_nil_iff, List.range'_eq_nil_iff]
        omega
      rw [request, if_neg hlo, hi', hn, Int.toNat_natCast, hm]
      simp only [Option.bind_eq_bind, Option.bind_some]
      rw [if_neg hne, hw.same]
    · have hc := covers_request sp.sender_ i n
      rwa [show (i : ℤ) - 1 = sp.ldata_ by omega, show (i : ℤ) + n - 1 = hi by omega] at hc

/-- The mark of a sender, that of a new entry if there is none. -/
def ldata (a : SRMAgent) (s : ℤ) : ℤ := (a.siphash_ s).elim (-1) (·.ldata_)

/-- Is a message of a sender in the vector of received ones? -/
def marked (a : SRMAgent) (s : ℤ) (id : ℕ) : Bool := (a.siphash_ s).elim false (·.bit id)

def Good (a : SRMAgent) : Prop := ∀ s sp, a.siphash_ s = some sp → sp.sender_ = s ∧ sp.Known

/-- The own entry leads the list, and the list has the entries of the table, each by its sender. -/
structure Listed (a : SRMAgent) : Prop where
  head : a.sip_.head? = some a.addr
  mem : ∀ s, s ∈ a.sip_ ↔ (a.siphash_ s).isSome
  sender : ∀ s sp, a.siphash_ s = some sp → sp.sender_ = s

/-- From one state to a later one the marks rise, and the calls speak once of every message that a
mark passed. -/
structure Moves (a b : SRMAgent) (ups : List Upcall) : Prop where
  good : b.Good
  ldata : ∀ s, a.ldata s ≤ b.ldata s
  counts : ∀ s id, delivered s id ups + requested s id ups =
    if a.ldata s < id ∧ id ≤ b.ldata s then 1 else 0
  listed : a.Listed → b.Listed
  size : b.groupSize_ - b.sip_.length = a.groupSize_ - a.sip_.length

theorem Good.moves {a : SRMAgent} (h : a.Good) : Moves a a [] := by
  refine ⟨h, fun _ => le_refl _, fun s id => ?_, id, rfl⟩
  rw [if_neg (by omega)]
  rfl

theorem Moves.trans {a b c : SRMAgent} {us vs : List Upcall} (h : Moves a b us)
    (h' : Moves b c vs) : Moves a c (us ++ vs) := by
  refine ⟨h'.good, fun s => (h.ldata s).trans (h'.ldata s), fun s id => ?_,
    fun hl => h'.listed (h.listed hl), h'.size.trans h.size⟩
  have hu := h.counts s id
  have hv := h'.counts s id
  have hl := h.ldata s
  have hl' := h'.ldata s
  rw [delivered_append, requested_append]
  split_ifs at hu hv ⊢ <;> omega

section

variable {a : SRMAgent} {sender : ℤ} {sp : SRMinfo}

/-- The table with the entry of one sender written. -/
theorem Good.update (h : a.Good) (hsender : sp.sender_ = sender) (hknown : sp.Known) :
    ∀ s sq, Function.update a.siphash_ sender (some sp) s = some sq →
      sq.sender_ = s ∧ sq.Known := by
  intro s sq hq
  by_cases he : s = sender
  · subst he
    rw [Function.update_self] at hq
    obtain rfl := Option.some.inj hq
    exact ⟨hsender, hknown⟩
  · rw [Function.update_of_ne he] at hq
    exact h s sq hq

theorem ldata_put_self : (a.put sender sp).ldata sender = sp.ldata_ := by simp [ldata, put]

theorem ldata_put_of_ne {s : ℤ} (h : s ≠ sender) : (a.put sender sp).ldata s = a.ldata s := by
  simp [ldata, put, Function.update_of_ne h]

theorem ldata_link {tmp : SRMinfo} (hs : a.siphash_ sender = none) (ht : tmp.ldata_ = -1) (s : ℤ) :
    (a.link sender tmp).ldata s = a.ldata s := by
  by_cases he : s = sender
  · subst he
    simp [ldata, link, hs, ht]
  · simp [ldata, link, Function.update_of_ne he]

theorem Listed.sender_update (h : a.Listed) (hsender : sp.sender_ = sender) :
    ∀ s sq, Function.update a.siphash_ sender (some sp) s = some sq → sq.sender_ = s := by
  intro s sq hq
  by_cases he : s = sender
  · subst he
    rw [Function.update_self] at hq
    rw [← Option.some.inj hq, hsender]
  · rw [Function.update_of_ne he] at hq
    exact h.sender s sq hq

theorem Listed.link {tmp : SRMinfo} (h : a.Listed) (hs : a.siphash_ sender = none)
    (hsender : tmp.sender_ = sender) : (a.link sender tmp).Listed := by
  obtain ⟨l, hl⟩ := List.head?_eq_some_iff.mp h.head
  refine ⟨by simp [SRMAgent.link, hl], fun s => ?_, h.sender_update hsender⟩
  have hmem : s ∈ (a.link sender tmp).sip_ ↔ s = sender ∨ s ∈ a.sip_ := by
    simp only [SRMAgent.link, hl, List.take_succ_cons, List.take_zero, List.drop_succ_cons,
      List.drop_zero, List.mem_append, List.mem_cons, List.not_mem_nil, or_false]
    tauto
  rw [hmem, h.mem]
  by_cases he : s = sender
  · simp [he, SRMAgent.link]
  · simp [he, SRMAgent.link, Function.update_of_ne he]

theorem Listed.put {sp' : SRMinfo} (h : a.Listed) (hs : a.siphash_ sender = some sp)
    (hsender : sp'.sender_ = sender) : (a.put sender sp').Listed := by
  refine ⟨h.head, fun s => ?_, h.sender_update hsender⟩
  rw [SRMAgent.put, h.mem]
  by_cases he : s = sender
  · simp [he, hs]
  · simp [Function.update_of_ne he]

theorem size_link (tmp : SRMinfo) : (a.link sender tmp).groupSize_ - (a.link sender tmp).sip_.length =
    a.groupSize_ - a.sip_.length := by
  have hlen : (a.link sender tmp).sip_.length = a.sip_.length + 1 := by
    simp only [link, List.length_append, List.length_cons, List.length_take, List.length_drop]
    omega
  rw [hlen]
  change a.groupSize_ + 1 - _ = _
  omega

variable (left) in
theorem get_state_spec (h : a.Good) (sender : ℤ) :
    ∃ sp b, get_state left a sender = (sp, b) ∧ b.siphash_ sender = some sp ∧
      b.addr = a.addr ∧ Moves a b [] := by
  cases hs : a.siphash_ sender with
  | some sp =>
    refine ⟨sp, a, ?_, hs, rfl, h.moves⟩
    rw [get_state, hs]
  | none =>
    refine ⟨SRMinfo.new sender (left.fields sender).1 (left.fields sender).2, a.link sender _, ?_,
      Function.update_self .., rfl, ⟨h.update rfl (SRMinfo.known_new ..), fun s => ?_,
      fun s id => ?_, fun hl => hl.link hs rfl, size_link _⟩⟩
    · rw [get_state, hs]
    · exact (ldata_link hs rfl s).ge
    · rw [ldata_link hs rfl s, if_neg (by omega)]
      rfl

theorem put_moves {sp' : SRMinfo} {ups : List Upcall} (h : a.Good)
    (hs : a.siphash_ sender = some sp) (hsender : sp'.sender_ = sender) (hknown : sp'.Known)
    (hle : sp.ldata_ ≤ sp'.ldata_) (hups : Covers sender sp.ldata_ sp'.ldata_ ups) :
    Moves a (a.put sender sp') ups := by
  have hold : a.ldata sender = sp.ldata_ := by simp [ldata, hs]
  refine ⟨h.update hsender hknown, fun s => ?_, fun s id => ?_, fun hl => hl.put hs hsender, rfl⟩
  · by_cases he : s = sender
    · subst he
      rwa [ldata_put_self, hold]
    · rw [ldata_put_of_ne he]
  · rw [hups s id]
    by_cases he : s = sender
    · subst he
      simp [ldata_put_self, hold]
    · rw [ldata_put_of_ne he, if_neg (by tauto), if_neg (by omega)]

theorem known_widened {sp sp' : SRMinfo} (h : sp.Known) (hw : sp.Widened sp') :
    sp'.sender_ = sp.sender_ ∧ sp'.ldata_ = sp.ldata_ ∧ sp'.Known := by
  have hl : sp'.ldata_ = sp.ldata_ := by rw [hw.same]
  refine ⟨by rw [hw.same], hl, hw.sized, hl ▸ h.ldata_ge, ?_, fun k hk => ?_⟩
  · have := h.room
    have := hw.length
    omega
  · rw [hw.bits k]
    exact h.above k (by omega)

variable (left) in
theorem catchUp_moves {sq : SRMinfo} (h : a.Good) (hs : a.siphash_ sender = some sp)
    (hknown : sq.Known) (hsender : sq.sender_ = sender) (hl : sq.ldata_ = sp.ldata_)
    (dataCnt : ℤ) :
    ∃ b ups, catchUp left a sender dataCnt sq = some (b, ups) ∧ Moves a b ups := by
  obtain ⟨ups, sp', hr, hw, hroom, hc⟩ := request_spec left hknown dataCnt
  obtain ⟨hsame, hl', hk⟩ := known_widened hknown hw
  refine ⟨_, ups, by rw [catchUp, hr]; rfl, ?_⟩
  rw [hsender, hl] at hc
  split_ifs with hlt
  · exact put_moves h hs (hsame.trans hsender)
      ⟨hk.sized, by have := hk.ldata_ge; dsimp only; omega, hroom,
        fun k hk' => hk.above k (by dsimp only at hk'; omega)⟩ (by dsimp only; omega) hc
  · refine put_moves h hs (hsame.trans hsender) hk (by omega) fun s id => ?_
    rw [hc s id]
    split_ifs <;> omega

variable (left) in
theorem arrive_moves {msgid : ℤ} (h : a.Good) (hs : a.siphash_ sender = some sp)
    (hlt : msgid > sp.ldata_) :
    ∃ b ups, arrive left a sender msgid sp = some (b, ups) ∧ Moves a b ups := by
  obtain ⟨hsender, hknown⟩ := h sender sp hs
  obtain ⟨ups, sp', hr, hw, hroom, hc⟩ := request_spec left hknown (msgid - 1)
  obtain ⟨hsame, hl', hk⟩ := known_widened hknown hw
  have hge := hknown.ldata_ge
  obtain ⟨i, rfl⟩ := Int.eq_ofNat_of_zero_le (show 0 ≤ msgid by omega)
  obtain ⟨sq, hq, hsized, hsq, hlen, hbits⟩ :=
    SRMinfo.setReceived_spec left.bytes hk.sized (n := i) (by omega)
  have hb : arrive left a sender i sp =
      some (a.put sender { sq with ldata_ := i }, ups ++ [.delivered sender i]) := by
    rw [arrive, hr, Option.bind_eq_bind, Option.bind_some]
    dsimp only
    rw [hq]
    rfl
  refine ⟨_, _, hb, put_moves h hs ?_ ⟨hsized, ?_, ?_, fun k hk' => ?_⟩ (le_of_lt hlt) ?_⟩
  · rw [hsq]
    exact hsame.trans hsender
  · dsimp only
    omega
  · dsimp only
    omega
  · change sq.bit k = false
    change (i : ℤ) < k at hk'
    rw [hbits k, hk.above k (by omega), Bool.or_false, beq_eq_false_iff_ne]
    omega
  · rw [hsender] at hc
    exact hc.append (by omega) (by dsimp only; omega) (covers_delivered sender i)

variable (left) in
theorem recvBlocks_moves (now sentBy sentAt : ℤ) (bs : List SessionInfo) (h : a.Good) :
    ∃ b ups, recvBlocks left now sentBy sentAt a bs = some (b, ups) ∧ Moves a b ups := by
  induction bs generalizing a with
  | nil => exact ⟨a, [], rfl, h.moves⟩
  | cons blk bs ih =>
    by_cases hown : blk.sender = a.addr ∧ now ≠ 0
    · obtain ⟨sp, b, hg, hs, -, hm⟩ := get_state_spec left h sentBy
      obtain ⟨hsender, hk⟩ := hm.good sentBy sp hs
      -- the distance is not part of what is known of the messages
      have hput : ∀ d : ℚ, Moves b (b.put sentBy { sp with distance_ := d }) [] := fun d =>
        put_moves hm.good hs hsender ⟨hk.sized, hk.ldata_ge, hk.room, hk.above⟩ (le_refl _)
          (covers_nil (le_refl _))
      obtain ⟨c, ups, hr, hm'⟩ := ih (hput _).good
      refine ⟨c, ups, ?_, hm.trans ((hput _).trans hm')⟩
      rw [recvBlocks, if_pos hown, hg]
      exact hr
    · obtain ⟨sp, b, hg, hs, -, hm⟩ := get_state_spec left h blk.sender
      obtain ⟨hsender, hk⟩ := hm.good blk.sender sp hs
      obtain ⟨c, ups, hc, hm'⟩ := catchUp_moves left hm.good hs hk hsender rfl blk.dataCnt
      obtain ⟨d, rest, hr, hm''⟩ := ih hm'.good
      refine ⟨d, ups ++ rest, ?_, hm.trans (hm'.trans hm'')⟩
      rw [recvBlocks, if_neg hown, hg]
      simp only [Option.bind_eq_bind, hc, hr, Option.bind_some]

theorem recv_data_moves (h : a.Good) (sender msgid : ℤ) :
    ∃ b ups, recv_data left a sender msgid = some (b, ups) ∧ Moves a b ups := by
  obtain ⟨sp, b, hg, hs, -, hm⟩ := get_state_spec left h sender
  by_cases hlt : msgid > sp.ldata_
  · obtain ⟨c, ups, hc, hm'⟩ := arrive_moves left hm.good hs hlt
    exact ⟨c, ups, by simp [recv_data, hg, hlt, hc], hm.trans hm'⟩
  · refine ⟨b, [.recvData sender msgid], ?_, hm.good, hm.ldata, hm.counts, hm.listed, hm.size⟩
    simp only [recv_data, hg, if_neg hlt]

theorem recv_repr_moves (h : a.Good) (round sender msgid : ℤ) :
    ∃ b ups, recv_repr left a round sender msgid = some (b, ups) ∧ Moves a b ups := by
  obtain ⟨sp, b, hg, hs, -, hm⟩ := get_state_spec left h sender
  by_cases hlt : msgid > sp.ldata_
  · obtain ⟨c, ups, hc, hm'⟩ := arrive_moves left hm.good hs hlt
    exact ⟨c, ups, by simp [recv_repr, hg, hlt, hc], hm.trans hm'⟩
  · refine ⟨b, [.recvRepair round sender msgid], ?_, hm.good, hm.ldata, hm.counts, hm.listed, hm.size⟩
    simp only [recv_repr, hg, if_neg hlt]

theorem recv_rqst_moves (h : a.Good) (requestor round sender msgid : ℤ) :
    ∃ b ups, recv_rqst left a requestor round sender msgid = some (b, ups) ∧ Moves a b ups := by
  obtain ⟨sp, b, hg, hs, -, hm⟩ := get_state_spec left h sender
  by_cases hlt : msgid > sp.ldata_
  · obtain ⟨hsender, hk⟩ := hm.good sender sp hs
    obtain ⟨ups, sp', hr, hw, hroom, hc⟩ := request_spec left hk msgid
    obtain ⟨hsame, hl', hk'⟩ := known_widened hk hw
    rw [hsender] at hc
    refine ⟨b.put sender { sp' with ldata_ := msgid }, ups, ?_, hm.trans
      (put_moves hm.good hs (hsame.trans hsender) ⟨hk'.sized, ?_, hroom, fun k hk'' => ?_⟩
        (le_of_lt hlt) hc)⟩
    · simp [recv_rqst, hg, hlt, hr]
    · have := hk'.ldata_ge
      dsimp only
      omega
    · exact hk'.above k (by dsimp only at hk''; omega)
  · refine ⟨b, [.recvRequest requestor round sender msgid], ?_, hm.good, hm.ldata, hm.counts, hm.listed, hm.size⟩
    simp only [recv_rqst, hg, if_neg hlt]

theorem recv_sess_moves (h : a.Good) (now sessCtr : ℤ) (data : ℕ → ℤ) :
    ∃ b ups, recv_sess left a now sessCtr data = some (b, ups) ∧ Moves a b ups := by
  by_cases hown : (GET_SESSION_INFO data 0).sender = a.addr
  · exact ⟨a, [], by rw [recv_sess, if_pos hown], h.moves⟩
  · obtain ⟨sp, b, hg, hs, -, hm⟩ := get_state_spec left h (GET_SESSION_INFO data 0).sender
    by_cases hold : sp.lsess_ > sessCtr
    · refine ⟨b, [], ?_, hm⟩
      rw [recv_sess, if_neg hown, hg]
      exact if_pos hold
    · obtain ⟨hsender, hk⟩ := hm.good _ sp hs
      have hk' : SRMinfo.Known { sp with
          lsess_ := sessCtr, recvTime_ := now, sendTime_ := (GET_SESSION_INFO data 0).stime } :=
        ⟨hk.sized, hk.ldata_ge, hk.room, hk.above⟩
      obtain ⟨c, ups, hc, hm'⟩ := catchUp_moves left hm.good hs hk' hsender rfl
        (GET_SESSION_INFO data 0).dataCnt
      obtain ⟨d, rest, hr, hm''⟩ := recvBlocks_moves left now (GET_SESSION_INFO data 0).sender
        (GET_SESSION_INFO data 0).stime (restBlocks data) hm'.good
      refine ⟨d, ups ++ rest, ?_, hm.trans (hm'.trans hm'')⟩
      rw [recv_sess, if_neg hown, hg]
      simp only [if_neg hold, Option.bind_eq_bind, hc, hr, Option.bind_some]

variable (left) in
theorem step_moves (h : a.Good) (e : Event) :
    ∃ b ups, step left a e = some (b, ups) ∧ Moves a b ups := by
  cases e with
  | data sender msgid => exact recv_data_moves h sender msgid
  | repr round sender msgid => exact recv_repr_moves h round sender msgid
  | rqst requestor round sender msgid => exact recv_rqst_moves h requestor round sender msgid
  | sess now sessCtr data => exact recv_sess_moves h now sessCtr data
  | distance sender =>
    obtain ⟨sp, b, hg, -, -, hm⟩ := get_state_spec left h sender
    exact ⟨b, [], by rw [step, hg], hm⟩
  | sendSession now => exact ⟨_, _, rfl, ⟨h, h.moves.ldata, h.moves.counts, fun hl => ⟨hl.head, hl.mem, hl.sender⟩, rfl⟩⟩
  | send => exact ⟨_, _, rfl, ⟨h, h.moves.ldata, h.moves.counts, fun hl => ⟨hl.head, hl.mem, hl.sender⟩, rfl⟩⟩

variable (left) in
theorem run_moves (h : a.Good) (es : List Event) :
    ∃ b os, Machine.run (step left) a es = some (b, os) ∧ Moves a b os.flatten := by
  induction es generalizing a with
  | nil => exact ⟨a, [], rfl, h.moves⟩
  | cons e es ih =>
    obtain ⟨b, ups, hs, hm⟩ := step_moves left h e
    obtain ⟨c, os, hr, hm'⟩ := ih hm.good
    exact ⟨c, ups :: os, by simp [Machine.run, hs, hr], hm.trans hm'⟩

end

theorem start_good (fields : ℤ × ℤ) (addr : ℤ) : (start fields addr).Good := by
  have hnone : Good { start fields addr with siphash_ := fun _ => none } := by
    intro s sp hs
    cases hs
  have hk := SRMinfo.known_new addr fields.1 fields.2
  have hown : SRMinfo.Known { SRMinfo.new addr fields.1 fields.2 with distance_ := 0 } :=
    ⟨hk.sized, hk.ldata_ge, hk.room, hk.above⟩
  exact hnone.update rfl hown

theorem start_listed (fields : ℤ × ℤ) (addr : ℤ) : (start fields addr).Listed := by
  refine ⟨rfl, fun s => ?_, fun s sp hs => ((start_good fields addr) s sp hs).1⟩
  by_cases he : s = addr
  · simp [start, he]
  · simp [start, he, Function.update_of_ne he]

theorem ldata_start (fields : ℤ × ℤ) (addr s : ℤ) : (start fields addr).ldata s = -1 := by
  by_cases he : s = addr
  · subst he
    simp [ldata, start, SRMinfo.new]
  · simp [ldata, start, Function.update_of_ne he]

/-- The list of every agent that runs has the members of its table, and `groupSize_` counts them. -/
theorem run_listed {left : Leftover} {fields : ℤ × ℤ} {addr : ℤ} {es : List Event} {b : SRMAgent}
    {os : List (List Upcall)} (h : Machine.run (step left) (start fields addr) es = some (b, os)) :
    b.Listed ∧ b.groupSize_ = b.sip_.length := by
  obtain ⟨c, os', hr, hm⟩ := run_moves left (start_good fields addr) es
  obtain ⟨rfl, -⟩ := Prod.mk.inj (Option.some.inj (hr.symm.trans h))
  refine ⟨hm.listed (start_listed fields addr), ?_⟩
  have hsize := hm.size
  have hstart : (start fields addr).groupSize_ - ((start fields addr).sip_.length : ℤ) = 0 := rfl
  omega

/-- Over every run no assertion fails and the marks rise; nothing above a mark is in its vector, and
what lies up to it was delivered at first sight or requested, once. -/
theorem run_accounts (left : Leftover) (fields : ℤ × ℤ) (addr : ℤ) (pre post : List Event) :
    ∃ a os b os', Machine.run (step left) (start fields addr) pre = some (a, os) ∧
      Machine.run (step left) a post = some (b, os') ∧
      ∀ s, a.ldata s ≤ b.ldata s ∧ (∀ id : ℕ, b.ldata s < id → b.marked s id = false) ∧
        ∀ id : ℤ, 0 ≤ id → id ≤ b.ldata s →
          delivered s id (os ++ os').flatten + requested s id (os ++ os').flatten = 1 := by
  obtain ⟨a, os, hr, hm⟩ := run_moves left (start_good fields addr) pre
  obtain ⟨b, os', hr', hm'⟩ := run_moves left hm.good post
  refine ⟨a, os, b, os', hr, hr', fun s => ⟨hm'.ldata s, fun id hid => ?_, fun id h0 hid => ?_⟩⟩
  · cases hs : b.siphash_ s with
    | none => simp [marked, hs]
    | some sp =>
      simp only [ldata, hs, Option.elim_some] at hid
      simpa [marked, hs] using (hm'.good s sp hs).2.above id hid
  · rw [List.flatten_append, (hm.trans hm').counts s id, ldata_start, if_pos ⟨by omega, hid⟩]

end SRMAgent

end Ns2
