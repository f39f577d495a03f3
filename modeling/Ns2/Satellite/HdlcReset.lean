import Ns2.Satellite.Hdlc

/-! The reset timer of an HDLC receiver is not stopped when the rejected frame arrives, so that it
is right to expire only while the reject is open. -/

namespace Ns2

namespace ARQstate

variable {P : Type} {h : HdlcSettings} {a b : ARQstate P} {n : ℤ}

theorem same_firstRequest : SameGap a a.firstRequest := by
  rw [firstRequest]
  split <;> exact ⟨rfl, rfl, rfl⟩

theorem same_inSendBuffer (p : P) : SameGap a (a.inSendBuffer h p) := by
  rw [inSendBuffer]
  split <;> exact ⟨rfl, rfl, rfl⟩

theorem same_confirm : SameGap a a.confirm := by
  rw [confirm]
  split <;> exact ⟨rfl, rfl, rfl⟩

theorem SameGap.handlePiggyAck (hb : a.handlePiggyAck n = some b) : SameGap a b := by
  simp only [ARQstate.handlePiggyAck] at hb
  obtain ⟨c, hc, rfl⟩ := Option.map_eq_some_iff.mp hb
  refine SameGap.trans (b := c) ?_ ⟨rfl, rfl, rfl⟩
  split at hc
  · obtain ⟨dp, -, rfl⟩ := Option.map_eq_some_iff.mp hc
    split <;> exact ⟨rfl, rfl, rfl⟩
  · obtain rfl := Option.some.inj hc
    exact .refl

theorem SameGap.handleRR (hb : a.handleRR h n = some b) : SameGap a b := by
  simp only [ARQstate.handleRR] at hb
  split at hb
  · obtain rfl := Option.some.inj hb
    exact .refl
  · refine SameGap.trans ?_ (Sends.of_sendMuch hb).toSameGap
    split_ifs <;> exact ⟨rfl, rfl, rfl⟩

theorem SameGap.handleREJ (hb : a.handleREJ h n = some b) : SameGap a b := by
  rw [ARQstate.handleREJ] at hb
  split at hb
  · obtain rfl := Option.some.inj hb
    exact .refl
  · have hsends := Sends.of_sendMuch hb
    exact ⟨hsends.awaited, hsends.rejected, hsends.armed⟩

theorem SameGap.handleSREJ (hb : a.handleSREJ h n = some b) : SameGap a b := by
  rw [ARQstate.handleSREJ] at hb
  split at hb
  · obtain rfl := Option.some.inj hb
    exact .refl
  · obtain ⟨dp, -, rfl⟩ := Option.map_eq_some_iff.mp hb
    exact (sends_output _ _).toSameGap

theorem SameGap.handleUA (hb : a.handleUA h = some b) : SameGap a b := by
  rw [ARQstate.handleUA] at hb
  split at hb
  · have hsends := Sends.of_sendMuch hb
    exact ⟨hsends.awaited, hsends.rejected, hsends.armed⟩
  · obtain rfl := Option.some.inj hb
    exact .refl

theorem same_delayTimeout : SameGap a ({ a with delay_timer_ := false }.delayTimeout h) := by
  rw [delayTimeout]
  split
  · have hack : Sends { a with delay_timer_ := false } (ack h { a with delay_timer_ := false }) :=
      sends_ack
    exact ⟨hack.awaited, hack.rejected, hack.armed⟩
  · exact ⟨rfl, rfl, rfl⟩

end ARQstate

/-- The frame that the last `REJ` asked for, and the frames that arrived since. -/
structure RejectGap where
  missing : ℕ
  arrived : List ℕ

namespace HDLC

variable {P : Type} {x y : HDLC P} {g : RejectGap}

open ARQstate

/-- A data frame that is not dropped counts as arrived, or is the one that `REJ` is sent for. -/
def nextGap (x y : HDLC P) (g : RejectGap) : HdlcEvent P → RejectGap
  | .frame (.I_frame _ n _) _ =>
    match x.list_head_, y.list_head_ with
    | some a, some b =>
      if a.SABME_req_ = 1 then g
      else if !a.sentREJ_ && b.sentREJ_ then ⟨b.recv_seqno_.toNat, []⟩
      else { g with arrived := n :: g.arrived }
    | _, _ => g
  | _ => g

def gapStep (s : HDLC P × RejectGap) (e : HdlcEvent P) : Option ((HDLC P × RejectGap) × List P) :=
  (s.1.step e).map fun r => ((r.1, nextGap s.1 r.1 s.2 e), r.2)

/-- The reset timer tears the connection down only if the missing frame has not arrived. -/
def ResetRight (s : HDLC P × RejectGap) : HdlcEvent P → Prop
  | .resetTimeout => ∀ a ∈ s.1.list_head_, a.reset_timer_ = true → s.2.missing ∉ s.2.arrived
  | _ => True

/-- The reset timer expires only while the reject is open. -/
def Rejecting (s : HDLC P × RejectGap) : HdlcEvent P → Prop
  | .resetTimeout => ∀ a ∈ s.1.list_head_, a.reset_timer_ = true → a.sentREJ_ = true
  | _ => True

structure Watched (h : HdlcSettings) (g : RejectGap) (a : ARQstate P) : Prop where
  goBackN : a.reset_timer_ = true → h.selRepeat_ = false
  lowest : -1 ≤ a.recv_seqno_
  waiting : a.reset_timer_ = true → a.sentREJ_ = true →
    g.missing = a.recv_seqno_.toNat ∧ g.missing ∉ g.arrived
  closed : a.reset_timer_ = true → a.sentREJ_ = false → g.missing ∈ g.arrived

def AllWatched (s : HDLC P × RejectGap) : Prop := ∀ a ∈ s.1.list_head_, Watched s.1.settings s.2 a

theorem Watched.same {h : HdlcSettings} {a b : ARQstate P} (ha : Watched h g a)
    (hab : SameGap a b) : Watched h g b where
  goBackN := by simpa [hab.armed] using ha.goBackN
  lowest := by simpa [hab.awaited] using ha.lowest
  waiting := by simpa [hab.armed, hab.rejected, hab.awaited] using ha.waiting
  closed := by simpa [hab.armed, hab.rejected] using ha.closed

theorem watched_newEntry (h : HdlcSettings) (maxseen : ℤ) :
    Watched h g (newEntry maxseen : ARQstate P) where
  goBackN := by simp [newEntry]
  lowest := le_rfl
  waiting := by simp [newEntry]
  closed := by simp [newEntry]

theorem firstData_awaits (a : ARQstate P) (k : ℕ) :
    (a.firstData k).recv_seqno_.toNat = a.recv_seqno_.toNat ∧
      a.recv_seqno_ ≤ (a.firstData k).recv_seqno_ ∧
      ((a.firstData k).recv_seqno_ = -1 → k ≠ 0) := by
  rw [firstData]
  split
  case isTrue h0 => simp [h0.2]
  case isFalse h0 => exact ⟨rfl, le_rfl, fun h1 hk => h0 ⟨hk, h1⟩⟩

theorem firstData_gap (a : ARQstate P) (k : ℕ) :
    (a.firstData k).sentREJ_ = a.sentREJ_ ∧ (a.firstData k).reset_timer_ = a.reset_timer_ := by
  rw [firstData]
  split <;> exact ⟨rfl, rfl⟩

/-- A frame that is not the missing one leaves the reject as it was. -/
theorem Watched.arrive {h : HdlcSettings} {a b : ARQstate P} {k : ℕ} (ha : Watched h g a)
    (hab : SameGap (a.firstData k) b) (hk : a.sentREJ_ = true → k ≠ a.recv_seqno_.toNat) :
    Watched h { g with arrived := k :: g.arrived } b := by
  obtain ⟨hnat, hle, -⟩ := firstData_awaits a k
  obtain ⟨hrej, harm⟩ := firstData_gap a k
  refine ⟨?_, ?_, ?_, ?_⟩
  · rw [hab.armed, harm]
    exact ha.goBackN
  · rw [hab.awaited]
    exact ha.lowest.trans hle
  · rw [hab.armed, hab.rejected, hab.awaited, harm, hrej, hnat]
    intro h1 h2
    obtain ⟨hm, hnot⟩ := ha.waiting h1 h2
    refine ⟨hm, fun hmem => ?_⟩
    rcases List.mem_cons.mp hmem with he | he
    · exact hk h2 (he.symm.trans hm)
    · exact hnot he
  · rw [hab.armed, hab.rejected, harm, hrej]
    exact fun h1 h2 => List.mem_cons_of_mem _ (ha.closed h1 h2)

theorem goBackNMode_gap {h : HdlcSettings} {a : ARQstate P} {k : ℕ} {p : P}
    {r : HdlcSettings × ARQstate P} (ha : Watched h g a) (hsel : h.selRepeat_ = false)
    (hr : (a.firstData k).goBackNMode h k p = some r) :
    Watched r.1 (if !a.sentREJ_ && r.2.sentREJ_ then ⟨r.2.recv_seqno_.toNat, []⟩
      else { g with arrived := k :: g.arrived }) r.2 := by
  obtain ⟨hnat, hle, hzero⟩ := firstData_awaits a k
  obtain ⟨hrej, harm⟩ := firstData_gap a k
  have hlow := ha.lowest
  have hsame : ∀ b : ARQstate P, SameGap (a.firstData k) b →
      (!a.sentREJ_ && b.sentREJ_) = false := by
    intro b hb
    rw [hb.rejected, hrej]
    exact Bool.not_and_self _
  simp only [goBackNMode] at hr
  by_cases hin : (k : ℤ) = (a.firstData k).recv_seqno_
  · -- the frame that was missing
    rw [if_pos hin] at hr
    obtain ⟨b, hb, rfl⟩ := Option.map_eq_some_iff.mp hr
    have hsends := (sends_delayAck hb).trans (sends_sendUp p)
    have hfalse : (b.sendUp p).sentREJ_ = false := by
      rw [hsends.rejected]
      cases hs : (a.firstData k).sentREJ_ <;> simp [takeInOrder, hs]
    have harmed : (b.sendUp p).reset_timer_ = a.reset_timer_ := hsends.armed.trans harm
    simp only [hfalse, Bool.and_false, Bool.false_eq_true, if_false]
    refine ⟨fun _ => hsel, ?_, fun _ h2 => by simp [hfalse] at h2, fun h1 _ => ?_⟩
    · rw [hsends.awaited]
      change -1 ≤ (a.firstData k).recv_seqno_ + 1
      omega
    · rw [harmed] at h1
      cases hs : a.sentREJ_ with
      | true =>
        have hm := (ha.waiting h1 hs).1
        have hkm : g.missing = k := by omega
        exact hkm ▸ List.mem_cons_self
      | false => exact List.mem_cons_of_mem _ (ha.closed h1 hs)
  · rw [if_neg hin] at hr
    have hother : k ≠ a.recv_seqno_.toNat := by
      intro hk
      rw [← hnat] at hk
      by_cases h1 : (a.firstData k).recv_seqno_ = -1
      · exact hzero h1 (by omega)
      · omega
    by_cases hgap : (k : ℤ) > (a.firstData k).recv_seqno_
    · rw [if_pos hgap] at hr
      cases hs : a.sentREJ_ with
      | true =>
        rw [hrej, hs] at hr
        obtain rfl := Option.some.inj hr
        exact ha.arrive .refl fun _ => hother
      | false =>
        rw [hrej, hs] at hr
        obtain rfl := Option.some.inj hr
        exact ⟨fun _ => hsel, hlow.trans hle, fun _ _ => ⟨rfl, List.not_mem_nil⟩,
          fun _ h2 => by cases h2⟩
    · rw [if_neg hgap] at hr
      obtain rfl := Option.some.inj hr
      have hack := (@sends_ack P h (a.firstData k)).toSameGap
      rw [hsame _ hack]
      exact ha.arrive hack fun _ => hother

theorem recvIframe_gap {h : HdlcSettings} {a : ARQstate P} {n : ℤ} {k : ℕ} {p : P}
    {r : HdlcSettings × ARQstate P} (ha : Watched h g a) (h1 : a.SABME_req_ ≠ 1)
    (hr : a.recvIframe h n k p = some r) :
    Watched r.1 (if !a.sentREJ_ && r.2.sentREJ_ then ⟨r.2.recv_seqno_.toNat, []⟩
      else { g with arrived := k :: g.arrived }) r.2 := by
  rw [recvIframe, if_neg h1, Option.bind_eq_some_iff] at hr
  obtain ⟨b, hb, hr⟩ := hr
  obtain ⟨q, hq, hr⟩ := Option.bind_eq_some_iff.mp hr
  obtain ⟨d, hd, rfl⟩ := Option.map_eq_some_iff.mp hr
  have hab : SameGap a b := by
    split at hb
    · exact same_confirm.trans (.handlePiggyAck hb)
    · obtain rfl := Option.some.inj hb
      exact same_confirm
  have hqd : SameGap q.2 d := by
    split at hd
    · exact (Sends.of_sendMuch hd).toSameGap
    · obtain rfl := Option.some.inj hd
      exact .refl
  have hmode : Watched q.1 (if !b.sentREJ_ && q.2.sentREJ_ then ⟨q.2.recv_seqno_.toNat, []⟩
      else { g with arrived := k :: g.arrived }) q.2 := by
    rw [recvMode] at hq
    cases hsel : h.selRepeat_ with
    | false =>
      rw [hsel, if_neg (by simp)] at hq
      exact goBackNMode_gap (ha.same hab) hsel hq
    | true =>
      rw [hsel, if_pos rfl] at hq
      obtain rfl := Option.some.inj hq
      have hsends := (@sends_selectiveRepeatMode P h (b.firstData k) k p).toSameGap
      have hoff : (selectiveRepeatMode h k p (b.firstData k)).reset_timer_ = false := by
        rw [hsends.armed, (firstData_gap b k).2, hab.armed]
        by_contra hon
        simp [ha.goBackN (Bool.not_eq_false _ ▸ hon)] at hsel
      have hle := (firstData_awaits b k).2.1
      exact ⟨by simp [hoff], by rw [hsends.awaited]; exact ((ha.same hab).lowest.trans hle),
        by simp [hoff], by simp [hoff]⟩
  rw [← hab.rejected, hqd.rejected, hqd.awaited]
  exact hmode.same hqd

/-! ### Runs -/

theorem watched_some {h : HdlcSettings} {a : ARQstate P}
    (ha : Watched h g a) : AllWatched ((⟨h, some a⟩ : HDLC P), g) := by
  intro b hb
  obtain rfl := Option.some.inj hb
  exact ha

theorem watched_none (h : HdlcSettings) : AllWatched ((⟨h, none⟩ : HDLC P), g) := by
  intro b hb
  cases hb

theorem AllWatched.withState {handle : ARQstate P → Option (ARQstate P)} {o : List P}
    (hx : AllWatched (x, g)) (hhandle : ∀ a b, handle a = some b → SameGap a b)
    (hs : x.withState handle = some (y, o)) : AllWatched (y, g) := by
  rw [HDLC.withState] at hs
  cases ha : x.list_head_ with
  | none =>
    simp only [ha] at hs
    obtain ⟨rfl, -⟩ := Prod.mk.inj (Option.some.inj hs)
    exact hx
  | some a =>
    simp only [ha] at hs
    obtain ⟨b, hb, hy⟩ := Option.map_eq_some_iff.mp hs
    obtain ⟨rfl, -⟩ := Prod.mk.inj hy
    exact watched_some ((hx a ha).same (hhandle a b hb))

theorem AllWatched.recvOutgoing {p : P} {maxseen : ℤ} {o : List P} (hx : AllWatched (x, g))
    (hs : x.recvOutgoing p maxseen = some (y, o)) : AllWatched (y, g) := by
  have hfound : Watched x.settings g (x.list_head_.getD (newEntry maxseen)) := by
    cases ha : x.list_head_ with
    | none => exact watched_newEntry _ maxseen
    | some a => exact hx a ha
  simp only [HDLC.recvOutgoing] at hs
  have hin := hfound.same (same_firstRequest.trans (@same_inSendBuffer P x.settings _ p))
  obtain ⟨b, hb, hy⟩ := Option.map_eq_some_iff.mp hs
  obtain ⟨rfl, -⟩ := Prod.mk.inj hy
  refine watched_some ?_
  split at hb
  · exact hin.same (Sends.of_sendMuch hb).toSameGap
  · obtain rfl := Option.some.inj hb
    exact hin

theorem AllWatched.timeout {a : ARQstate P} {o : List P} (ha : Watched x.settings g a)
    (hs : x.timeout a = some (y, o)) : AllWatched (y, g) := by
  simp only [HDLC.timeout] at hs
  split_ifs at hs
  · obtain ⟨rfl, -⟩ := Prod.mk.inj (Option.some.inj hs)
    exact watched_none _
  · obtain ⟨dp, -, hy⟩ := Option.map_eq_some_iff.mp hs
    obtain ⟨rfl, -⟩ := Prod.mk.inj hy
    exact watched_some (ha.same ⟨rfl, rfl, rfl⟩)
  · obtain ⟨rfl, -⟩ := Prod.mk.inj (Option.some.inj hs)
    exact watched_some (ha.same ⟨rfl, rfl, rfl⟩)
  · obtain ⟨b, hb, hy⟩ := Option.map_eq_some_iff.mp hs
    obtain ⟨rfl, -⟩ := Prod.mk.inj hy
    have hsends := Sends.of_sendMuch hb
    exact watched_some (ha.same ⟨hsends.awaited, hsends.rejected, hsends.armed⟩)

theorem AllWatched.whenPending {pending : ARQstate P → Bool}
    {expire : ARQstate P → Option (HDLC P × List P)} {o : List P} (hx : AllWatched (x, g))
    (hexpire : ∀ a, Watched x.settings g a → expire a = some (y, o) → AllWatched (y, g))
    (hs : x.whenPending pending expire = some (y, o)) : AllWatched (y, g) := by
  rw [HDLC.whenPending] at hs
  cases ha : x.list_head_ with
  | none =>
    simp only [ha] at hs
    obtain ⟨rfl, -⟩ := Prod.mk.inj (Option.some.inj hs)
    exact hx
  | some a =>
    simp only [ha] at hs
    split at hs
    · exact hexpire a (hx a ha) hs
    · obtain ⟨rfl, -⟩ := Prod.mk.inj (Option.some.inj hs)
      exact hx

theorem AllWatched.iframe {n maxseen : ℤ} {k : ℕ} {p : P} {o : List P} (hx : AllWatched (x, g))
    (hs : x.step (.frame (.I_frame n k p) maxseen) = some (y, o)) :
    AllWatched (y, nextGap x y g (.frame (.I_frame n k p) maxseen)) := by
  simp only [HDLC.step, recvIncoming] at hs
  cases ha : x.list_head_ with
  | none =>
    simp only [ha] at hs
    obtain ⟨rfl, -⟩ := Prod.mk.inj (Option.some.inj hs)
    intro a hy
    simp [ha] at hy
  | some a =>
    simp only [ha] at hs
    obtain ⟨r, hr, hy⟩ := Option.map_eq_some_iff.mp hs
    obtain ⟨rfl, -⟩ := Prod.mk.inj hy
    refine watched_some ?_
    simp only [nextGap, ha]
    by_cases h1 : a.SABME_req_ = 1
    · rw [if_pos h1]
      rw [recvIframe, if_pos h1] at hr
      obtain rfl := Option.some.inj hr
      exact hx a ha
    · rw [if_neg h1]
      exact recvIframe_gap (hx a ha) h1 hr

theorem AllWatched.step {s t : HDLC P × RejectGap} {e : HdlcEvent P} {o : List P}
    (hx : AllWatched s) (hs : gapStep s e = some (t, o)) : AllWatched t := by
  obtain ⟨x, g⟩ := s
  obtain ⟨⟨y, o'⟩, hstep, he⟩ := Option.map_eq_some_iff.mp hs
  obtain ⟨rfl, rfl⟩ := Prod.mk.inj he
  cases e with
  | outgoing p maxseen => exact hx.recvOutgoing hstep
  | frame f maxseen =>
    cases f with
    | I_frame n k p => exact hx.iframe hstep
    | S_frame stype n =>
      cases stype with
      | RR => exact hx.withState (fun a b => SameGap.handleRR) hstep
      | REJ => exact hx.withState (fun a b => SameGap.handleREJ) hstep
      | RNR =>
        obtain ⟨rfl, -⟩ := Prod.mk.inj (Option.some.inj hstep)
        exact hx
      | SREJ => exact hx.withState (fun a b => SameGap.handleSREJ) hstep
    | U_frame utype =>
      cases utype with
      | SABME =>
        obtain ⟨rfl, -⟩ := Prod.mk.inj (Option.some.inj hstep)
        exact watched_some ((watched_newEntry _ maxseen).same (sends_sendDown _).toSameGap)
      | UA => exact hx.withState (fun a b => SameGap.handleUA) hstep
  | rtxTimeout => exact hx.whenPending (fun a ha => AllWatched.timeout ha) hstep
  | delayTimeout =>
    refine hx.whenPending (fun a ha hy => ?_) hstep
    obtain ⟨rfl, -⟩ := Prod.mk.inj (Option.some.inj hy)
    exact watched_some (ha.same same_delayTimeout)
  | resetTimeout =>
    refine hx.whenPending (fun a ha hy => ?_) hstep
    obtain ⟨rfl, -⟩ := Prod.mk.inj (Option.some.inj hy)
    exact watched_none _

theorem reset_right_iff {s : HDLC P × RejectGap} (hx : AllWatched s) (e : HdlcEvent P) :
    ResetRight s e ↔ Rejecting s e := by
  cases e with
  | resetTimeout =>
    refine forall_congr' fun a => forall_congr' fun ha => forall_congr' fun harm => ?_
    have hw := hx a ha
    cases hrej : a.sentREJ_ with
    | true => exact ⟨fun _ => rfl, fun _ => (hw.waiting harm hrej).2⟩
    | false => exact ⟨fun hm => absurd (hw.closed harm hrej) hm, fun hf => by cases hf⟩
  | _ => exact Iff.rfl

/-- A connection is torn down only for a frame that is missing in exactly the runs in which the
reset timer never expires after the reject is answered. -/
theorem admits_reset_iff (settings : HdlcSettings) (events : List (HdlcEvent P)) :
    Machine.Admits gapStep ResetRight (start settings, ⟨0, []⟩) events ↔
      Machine.Admits gapStep Rejecting (start settings, ⟨0, []⟩) events :=
  Machine.admits_iff (I := AllWatched) (fun _ _ _ _ hx hs => hx.step hs)
    (fun _ e hx => reset_right_iff hx e) (watched_none settings) events

instance (s : HDLC P × RejectGap) (e : HdlcEvent P) : Decidable (ResetRight s e) :=
  match e with
  | .resetTimeout => inferInstanceAs (Decidable (∀ a ∈ s.1.list_head_, _ → _))
  | .outgoing .. => .isTrue trivial
  | .frame .. => .isTrue trivial
  | .rtxTimeout => .isTrue trivial
  | .delayTimeout => .isTrue trivial

/-- Frame 1 arrives after the reject, and the timer still resets the connection. -/
theorem reset_after_arrival : ¬ Machine.Admits gapStep ResetRight
    (start ⟨4, 10, 3, false, false⟩, ⟨0, []⟩)
    [.frame (.U_frame .SABME) 0, .frame (.I_frame (-1) 0 "a") 0, .frame (.I_frame (-1) 2 "c") 0,
      .frame (.I_frame (-1) 1 "b") 0, .resetTimeout] := by
  decide

end HDLC

end Ns2
