import Ns2.Tcp.AckRecons

/-! When the acks that a reconstructor passes on never decrease. -/

namespace Ns2

namespace AckRecons

variable {r : AckRecons} {a ack b : ℤ} {n : ℕ}

/-- The acks of `l` are scheduled. -/
def sends (r : AckRecons) (l : List ℤ) : AckRecons :=
  { r with
    scheduled := r.scheduled ++ l
    ackPending_ := r.ackPending_ + l.length }

theorem sendack_eq (r : AckRecons) (a : ℤ) : r.sendack a = r.sends [a] := rfl

theorem sends_sends (r : AckRecons) (l m : List ℤ) : (r.sends l).sends m = r.sends (l ++ m) := by
  simp [sends, add_assoc]

theorem sendLoop_spec (hd : 1 ≤ r.delack_) (hn : 1 ≤ n) (hfuel : ack - a + 2 ≤ n) :
    ∃ l b, sendLoop ack n a r = some (b, r.sends l) ∧ (∀ v ∈ l, v ≤ ack) ∧ ack < b ∧
      (b = a ∨ b - r.delack_ ∈ l) := by
  induction n generalizing a r with
  | zero => omega
  | succ n ih =>
    by_cases ha : a ≤ ack
    · obtain ⟨l, b, h1, h2, h3, h4⟩ := ih (r := r.sendack a) hd (by omega)
        (show ack - (a + r.delack_) + 2 ≤ n by omega)
      have hdel : (r.sendack a).delack_ = r.delack_ := rfl
      rw [hdel] at h4
      refine ⟨a :: l, b, ?_, ?_, h3, .inr ?_⟩
      · rw [sendLoop, if_pos ha, h1, sendack_eq, sends_sends]
        rfl
      · intro v hv
        obtain rfl | hv := List.mem_cons.mp hv
        · exact ha
        · exact h2 v hv
      · obtain rfl | h4 := h4
        · simp
        · exact List.mem_cons_of_mem a h4
    · exact ⟨[], a, by rw [sendLoop, if_neg ha]; simp [sends], by simp, by omega, .inl rfl⟩

/-- The scheduled acks go up to the new one, and end with it. -/
theorem intersperse_spec (hd : 1 ≤ r.delack_) (ack : ℤ) :
    ∃ l, r.intersperse ack = some (r.sends l) ∧ (∀ v ∈ l, v ≤ ack) ∧
      (r.lastAck_ < ack → ack ∈ l) := by
  have hfuel : ack - (r.lastAck_ + r.delack_) + 2 ≤ ((ack - r.lastAck_).toNat + 1 : ℕ) := by omega
  obtain ⟨l, b, h1, h2, h3, h4⟩ := sendLoop_spec hd (by omega) hfuel
  rw [intersperse, h1, Option.map_some]
  dsimp only
  by_cases hmod : (b - ack).tmod r.delack_ ≠ 0
  · refine ⟨l ++ [ack], ?_, ?_, fun _ => by simp⟩
    · have hdel : (r.sends l).delack_ = r.delack_ := rfl
      rw [if_pos hmod, sendack_eq, sends_sends]
    · intro v hv
      obtain hv | hv := List.mem_append.mp hv
      · exact h2 v hv
      · exact (List.mem_singleton.mp hv).le
  · refine ⟨l, by rw [if_neg hmod], h2, fun hlt => ?_⟩
    obtain ⟨m, hm⟩ := Int.dvd_of_tmod_eq_zero (not_not.mp hmod)
    have hpos : 0 < m := by
      by_contra hneg
      have := Int.mul_le_mul_of_nonneg_left (show m ≤ 0 by omega) (show 0 ≤ r.delack_ by omega)
      omega
    have hge : r.delack_ ≤ r.delack_ * m := le_mul_of_one_le_right (by omega) hpos
    obtain rfl | hmem := h4
    · omega
    · have := h2 _ hmem
      have hb : b - r.delack_ = ack := by omega
      rwa [hb] at hmem

end AckRecons

namespace AckTrace

variable {t : AckTrace} {last a ack b c : ℤ} {k : ℕ} {l : List ℤ}

/-- What holds while no scheduled ack is left behind by a duplicate. -/
structure Kept (last : ℤ) (t : AckTrace) : Prop where
  sorted : t.passed.Pairwise (· ≤ ·)
  covered : ∀ a ∈ t.arrived, last < a →
    a ∈ t.passed ∨ a ∈ t.recons.scheduled ∨ ∃ b ∈ t.passed, a < b
  pending : t.recons.ackPending_ = t.recons.scheduled.length
  safe : ∀ a ∈ t.recons.scheduled, t.recons.lastAck_ < a → ∀ p ∈ t.passed, p ≤ a
  start : last ≤ t.recons.lastAck_
  lastAck : t.recons.lastAck_ = last ∨ t.recons.lastAck_ ∈ t.passed
  lastRealAck : t.recons.lastRealAck_ = last ∨ t.recons.lastRealAck_ ∈ t.arrived
  behind : t.recons.lastAck_ ≤ t.recons.lastRealAck_
  arrived_le : ∀ a ∈ t.arrived, a ≤ t.recons.lastRealAck_
  scheduled_le : ∀ a ∈ t.recons.scheduled, a ≤ t.recons.lastRealAck_ ∧ ∃ b ∈ t.arrived, a ≤ b
  passed_le : ∀ p ∈ t.passed, ∃ b ∈ t.arrived, p ≤ b
  dupacks : t.recons.dupacks_ ≤ 0 → ∀ p ∈ t.passed, p ≤ t.recons.lastAck_
  garbage : t.recons.dupacks_ < 0 → t.recons.lastAck_ = t.recons.lastRealAck_
  delack : 1 ≤ t.recons.delack_

theorem step_handle (ha : t.recons.scheduled[k]? = some a) :
    t.step (.handle k) = some (if t.recons.lastAck_ < a then
      (⟨{ t.recons with
        scheduled := t.recons.scheduled.eraseIdx k
        ackPending_ := t.recons.ackPending_ - 1
        lastAck_ := a }, t.arrived, t.passed ++ [a]⟩, some a)
      else (⟨{ t.recons with
        scheduled := t.recons.scheduled.eraseIdx k
        ackPending_ := t.recons.ackPending_ - 1 }, t.arrived, t.passed⟩, none)) := by
  rw [step, AckRecons.handle, ha, Option.map_some, Option.map_some]
  split <;> simp

theorem pairwise_concat {p : ℤ} (h : l.Pairwise (· ≤ ·)) (hp : ∀ a ∈ l, a ≤ p) :
    (l ++ [p]).Pairwise (· ≤ ·) := by
  rw [List.pairwise_append]
  exact ⟨h, by simp, by simpa using hp⟩

theorem mem_eraseIdx_or (ha : l[k]? = some a) {v : ℤ} (hv : v ∈ l) : v = a ∨ v ∈ l.eraseIdx k := by
  obtain ⟨i, hi⟩ := List.getElem?_of_mem hv
  by_cases hik : i = k
  · rw [hik, ha] at hi
    exact .inl (Option.some.inj hi).symm
  · exact .inr (List.mem_eraseIdx_iff_getElem?.mpr ⟨i, hik, hi⟩)

/-- An ack that is passed on leaves the others covered. -/
theorem Kept.covered_of (h : t.Kept last) {passed scheduled : List ℤ}
    (hp : ∀ v ∈ t.passed, v ∈ passed)
    (hs : ∀ v ∈ t.recons.scheduled, last < v → v ∈ passed ∨ v ∈ scheduled ∨ ∃ b ∈ passed, v < b) :
    ∀ v ∈ t.arrived, last < v → v ∈ passed ∨ v ∈ scheduled ∨ ∃ b ∈ passed, v < b := by
  intro v hv hlast
  obtain hpass | hsched | ⟨b, hb, hlt⟩ := h.covered v hv hlast
  · exact .inl (hp v hpass)
  · exact hs v hsched hlast
  · exact .inr (.inr ⟨b, hp b hb, hlt⟩)

/-- An ack that `lastAck_` has reached has been passed on, or a larger one. -/
theorem Kept.reached (h : t.Kept last) (hlast : last < a) (ha : a ≤ t.recons.lastAck_) :
    a ∈ t.passed ∨ ∃ b ∈ t.passed, a < b := by
  have hmem : t.recons.lastAck_ ∈ t.passed := by
    obtain he | hmem := h.lastAck
    · omega
    · exact hmem
  obtain rfl | hlt := ha.eq_or_lt
  · exact .inl hmem
  · exact .inr ⟨_, hmem, hlt⟩

theorem Kept.release (h : t.Kept last) {t' : AckTrace} {o : Option ℤ}
    (hs : t.step (.handle k) = some (t', o)) : t'.Kept last := by
  cases ha : t.recons.scheduled[k]? with
  | none => simp [step, AckRecons.handle, ha] at hs
  | some a =>
    rw [step_handle ha] at hs
    have hmem : a ∈ t.recons.scheduled := List.mem_of_getElem? ha
    have hsub : ∀ v ∈ t.recons.scheduled.eraseIdx k, v ∈ t.recons.scheduled :=
      (List.eraseIdx_sublist _ _).subset
    have hk : k < t.recons.scheduled.length := (List.getElem?_eq_some_iff.mp ha).1
    have hlen : ((t.recons.scheduled.eraseIdx k).length : ℤ) = t.recons.scheduled.length - 1 := by
      rw [List.length_eraseIdx_of_lt hk]
      omega
    have hpend := h.pending
    split at hs
    · next hlt =>
      obtain ⟨rfl, rfl⟩ := Prod.mk.inj (Option.some.inj hs)
      have hle := h.safe a hmem hlt
      exact {
        sorted := pairwise_concat h.sorted hle
        covered := h.covered_of (fun v hv => by simp [hv]) fun v hv _ => by
          obtain rfl | hv := mem_eraseIdx_or ha hv
          · exact .inl (by simp)
          · exact .inr (.inl hv)
        pending := by dsimp only; omega
        safe := fun v hv hlt' p hp => by
          obtain hp | hp := List.mem_append.mp hp
          · exact (hle p hp).trans hlt'.le
          · exact (List.mem_singleton.mp hp).trans_le hlt'.le
        start := h.start.trans hlt.le
        lastAck := .inr (by simp)
        lastRealAck := h.lastRealAck
        behind := (h.scheduled_le a hmem).1
        arrived_le := h.arrived_le
        scheduled_le := fun v hv => h.scheduled_le v (hsub v hv)
        passed_le := fun p hp => by
          obtain hp | hp := List.mem_append.mp hp
          · exact h.passed_le p hp
          · rw [List.mem_singleton.mp hp]
            exact (h.scheduled_le a hmem).2
        dupacks := fun _ p hp => by
          obtain hp | hp := List.mem_append.mp hp
          · exact hle p hp
          · exact (List.mem_singleton.mp hp).le
        garbage := fun hneg => by
          have h1 := h.garbage hneg
          have h2 := (h.scheduled_le a hmem).1
          dsimp only
          omega
        delack := h.delack }
    · next hlt =>
      obtain ⟨rfl, rfl⟩ := Prod.mk.inj (Option.some.inj hs)
      exact {
        sorted := h.sorted
        covered := h.covered_of (fun v hv => hv) fun v hv hlast => by
          obtain rfl | hv := mem_eraseIdx_or ha hv
          · obtain hp | hp := h.reached hlast (not_lt.mp hlt)
            · exact .inl hp
            · exact .inr (.inr hp)
          · exact .inr (.inl hv)
        pending := by dsimp only; omega
        safe := fun v hv => h.safe v (hsub v hv)
        start := h.start
        lastAck := h.lastAck
        lastRealAck := h.lastRealAck
        behind := h.behind
        arrived_le := h.arrived_le
        scheduled_le := fun v hv => h.scheduled_le v (hsub v hv)
        passed_le := h.passed_le
        dupacks := h.dupacks
        garbage := h.garbage
        delack := h.delack }

theorem Kept.right (h : t.Kept last) : t.Right last :=
  ⟨h.sorted, fun _ _ _ hs => (h.release hs).sorted, h.covered, h.pending⟩

theorem Kept.passed_rising (h : t.Kept last) (hr : t.Rising (.recv ack)) :
    ∀ p ∈ t.passed, p ≤ ack := by
  intro p hp
  obtain ⟨b, hb, hpb⟩ := h.passed_le p hp
  exact hpb.trans (hr b hb)

/-- An ack below the last real one is below every ack that counts. -/
theorem Kept.early (h : t.Kept last) (hr : t.Rising (.recv ack))
    (ha : ack < t.recons.lastRealAck_) :
    t.recons.lastRealAck_ = last ∧ t.recons.lastAck_ = last ∧ ack < last := by
  obtain he | hmem := h.lastRealAck
  · have h1 := h.start
    have h2 := h.behind
    omega
  · have := hr _ hmem
    omega

theorem arrived_concat_le {l : List ℤ} (hl : ∀ a ∈ l, a ≤ b) (ha : ack ≤ c) (hbc : b ≤ c) :
    ∀ a ∈ l ++ [ack], a ≤ c := by
  intro v hv
  obtain hv | hv := List.mem_append.mp hv
  · exact (hl v hv).trans hbc
  · exact (List.mem_singleton.mp hv).trans_le ha

/-- An ack goes through at once. -/
theorem Kept.goes_through (h : t.Kept last) (hr : t.Rising (.recv ack)) {r : AckRecons}
    (hs : r.scheduled = t.recons.scheduled) (hp : r.ackPending_ = t.recons.ackPending_)
    (hd : r.delack_ = t.recons.delack_) (hreal : r.lastRealAck_ = max t.recons.lastRealAck_ ack)
    (hlast : r.lastAck_ = t.recons.lastAck_ ∨ (r.lastAck_ = ack ∧ t.recons.lastAck_ ≤ ack))
    (hbehind : r.lastAck_ ≤ r.lastRealAck_)
    (hsafe : ∀ a ∈ t.recons.scheduled, r.lastAck_ < a → ack ≤ a)
    (hdup : r.dupacks_ ≤ 0 → ack ≤ r.lastAck_ ∧ ∀ p ∈ t.passed, p ≤ r.lastAck_)
    (hgarbage : r.dupacks_ < 0 → r.lastAck_ = r.lastRealAck_) :
    Kept last ⟨r, t.arrived ++ [ack], t.passed ++ [ack]⟩ where
  sorted := pairwise_concat h.sorted (h.passed_rising hr)
  covered := fun v hv hlt => by
    rw [hs]
    obtain hv | hv := List.mem_append.mp hv
    · exact h.covered_of (fun v hv => by simp [hv]) (fun v hv _ => .inr (.inl hv)) v hv hlt
    · exact .inl (by simp [List.mem_singleton.mp hv])
  pending := by rw [hp, hs, h.pending]
  safe := fun a ha hlt p hp' => by
    rw [hs] at ha
    obtain hp' | hp' := List.mem_append.mp hp'
    · change r.lastAck_ < a at hlt
      refine h.safe a ha ?_ p hp'
      omega
    · rw [List.mem_singleton.mp hp']
      exact hsafe a ha hlt
  start := by
    have := h.start
    dsimp only
    omega
  lastAck := by
    obtain he | ⟨he, -⟩ := hlast
    · rw [he]
      exact h.lastAck.imp_right fun hm => by simp [hm]
    · exact .inr (by simp [he])
  lastRealAck := by
    rw [hreal]
    obtain hm | hm := le_total t.recons.lastRealAck_ ack
    · exact .inr (by simp [hm])
    · rw [max_eq_left hm]
      exact h.lastRealAck.imp_right fun hm => by simp [hm]
  behind := hbehind
  arrived_le := by
    rw [hreal]
    exact arrived_concat_le h.arrived_le (le_max_right _ _) (le_max_left _ _)
  scheduled_le := fun a ha => by
    rw [hs] at ha
    obtain ⟨h1, b, hb, h2⟩ := h.scheduled_le a ha
    rw [hreal]
    exact ⟨h1.trans (le_max_left _ _), b, by simp [hb], h2⟩
  passed_le := fun p hp' => by
    obtain hp' | hp' := List.mem_append.mp hp'
    · obtain ⟨b, hb, h2⟩ := h.passed_le p hp'
      exact ⟨b, by simp [hb], h2⟩
    · exact ⟨ack, by simp, (List.mem_singleton.mp hp').le⟩
  dupacks := fun hle p hp' => by
    obtain hp' | hp' := List.mem_append.mp hp'
    · exact (hdup hle).2 p hp'
    · rw [List.mem_singleton.mp hp']
      exact (hdup hle).1
  garbage := hgarbage
  delack := by rw [hd]; exact h.delack

theorem noteReal_eq (r : AckRecons) (ack : ℤ) :
    r.noteReal ack = { r with lastRealAck_ := max r.lastRealAck_ ack } := by
  rw [AckRecons.noteReal]
  split
  · next hge => rw [max_eq_right hge]
  · next hlt => rw [max_eq_left (by omega)]

theorem step_immediate (hi : t.recons.immediate ack = true) : t.step (.recv ack) =
    some (⟨(t.recons.pass ack).noteReal ack, t.arrived ++ [ack], t.passed ++ [ack]⟩, some ack) := by
  rw [step, AckRecons.recv, if_pos hi]
  rfl

theorem Kept.immediate (h : t.Kept last) (hr : t.Rising (.recv ack)) (ho : t.Ok (.recv ack))
    (hi : t.recons.immediate ack = true) :
    Kept last ⟨(t.recons.pass ack).noteReal ack, t.arrived ++ [ack], t.passed ++ [ack]⟩ := by
  have hle := h.passed_rising hr
  have hbehind := h.behind
  rw [noteReal_eq, AckRecons.pass]
  by_cases hdupl : ack = t.recons.lastRealAck_
  · rw [if_pos hdupl]
    have hgarbage := h.garbage
    refine h.goes_through hr rfl rfl rfl rfl (.inl rfl) (hbehind.trans (le_max_left _ _))
      (ho hi hdupl) (fun hdup => ?_) fun hneg => ?_
    · dsimp only at hdup
      have hlast : t.recons.lastAck_ = ack := (hgarbage (by omega)).trans hdupl.symm
      dsimp only
      exact ⟨hlast.ge, fun p hp => (hle p hp).trans_eq hlast.symm⟩
    · dsimp only at hneg ⊢
      rw [hgarbage (by omega), hdupl, max_self]
  · rw [if_neg hdupl]
    by_cases hnew : ack > t.recons.lastAck_
    · have hreal : t.recons.lastRealAck_ < ack := by
        by_contra hge
        have := h.early hr (by omega)
        omega
      rw [if_pos hnew]
      refine h.goes_through hr rfl rfl rfl rfl (.inr ⟨rfl, hnew.le⟩) (le_max_right _ _)
        (fun a ha hlt => hlt.le) (fun _ => ⟨le_rfl, hle⟩) fun hneg => ?_
      exact absurd hneg (by simp)
    · have hearly := h.early hr (by omega)
      have hle' : ack ≤ t.recons.lastAck_ := not_lt.mp hnew
      rw [if_neg hnew]
      refine h.goes_through hr rfl rfl rfl rfl (.inl rfl) (hbehind.trans (le_max_left _ _))
        (fun a _ hlt => hle'.trans hlt.le) (fun _ => ⟨hle', fun p hp => (hle p hp).trans hle'⟩)
        fun _ => ?_
      dsimp only
      rw [max_eq_left (by omega)]
      omega

/-- The acks up to a new one are scheduled. -/
theorem Kept.scheduled (h : t.Kept last) (hr : t.Rising (.recv ack)) {r : AckRecons}
    (hdup : t.recons.dupacks_ = 0) (hdup' : 0 ≤ r.dupacks_)
    (hs : r.scheduled = t.recons.scheduled ++ l)
    (hp : r.ackPending_ = t.recons.ackPending_ + l.length)
    (hd : r.delack_ = t.recons.delack_) (hreal : r.lastRealAck_ = max t.recons.lastRealAck_ ack)
    (hlast : r.lastAck_ = t.recons.lastAck_) (hl : ∀ v ∈ l, v ≤ ack)
    (hend : t.recons.lastAck_ < ack → ack ∈ l) : Kept last ⟨r, t.arrived ++ [ack], t.passed⟩ where
  sorted := h.sorted
  covered := fun v hv hlt => by
    rw [hs]
    obtain hv | hv := List.mem_append.mp hv
    · exact h.covered_of (fun v hv => hv) (fun v hv _ => .inr (.inl (by simp [hv]))) v hv hlt
    · rw [List.mem_singleton.mp hv] at hlt ⊢
      by_cases hlt' : t.recons.lastAck_ < ack
      · exact .inr (.inl (by simp [hend hlt']))
      · exact (h.reached hlt (not_lt.mp hlt')).imp_right .inr
  pending := by
    rw [hp, hs, h.pending, List.length_append]
    simp
  safe := fun a _ hlt p hp' => by
    have := h.dupacks hdup.le p hp'
    dsimp only at hlt
    omega
  start := h.start.trans_eq hlast.symm
  lastAck := by
    rw [hlast]
    exact h.lastAck
  lastRealAck := by
    rw [hreal]
    obtain hm | hm := le_total t.recons.lastRealAck_ ack
    · exact .inr (by simp [hm])
    · rw [max_eq_left hm]
      exact h.lastRealAck.imp_right fun hm => by simp [hm]
  behind := by
    rw [hlast, hreal]
    exact h.behind.trans (le_max_left _ _)
  arrived_le := by
    rw [hreal]
    exact arrived_concat_le h.arrived_le (le_max_right _ _) (le_max_left _ _)
  scheduled_le := fun a ha => by
    rw [hs] at ha
    rw [hreal]
    obtain ha | ha := List.mem_append.mp ha
    · obtain ⟨h1, b, hb, h2⟩ := h.scheduled_le a ha
      exact ⟨h1.trans (le_max_left _ _), b, by simp [hb], h2⟩
    · exact ⟨(hl a ha).trans (le_max_right _ _), ack, by simp, hl a ha⟩
  passed_le := fun p hp' => by
    obtain ⟨b, hb, h2⟩ := h.passed_le p hp'
    exact ⟨b, by simp [hb], h2⟩
  dupacks := fun _ p hp' => by
    rw [hlast]
    exact h.dupacks hdup.le p hp'
  garbage := fun hneg => absurd hneg (not_lt.mpr hdup')
  delack := by rw [hd]; exact h.delack

theorem Kept.step (h : t.Kept last) {o : AckOp} (hr : t.Rising o) (ho : t.Ok o) :
    ∃ t' r, t.step o = some (t', r) ∧ t'.Kept last := by
  cases o with
  | handle k =>
    obtain ⟨a, ha⟩ : ∃ a, t.recons.scheduled[k]? = some a := ⟨_, List.getElem?_eq_getElem hr⟩
    exact ⟨_, _, step_handle ha, h.release (step_handle ha)⟩
  | recv ack =>
    by_cases hi : t.recons.immediate ack = true
    · exact ⟨_, _, step_immediate hi, h.immediate hr ho hi⟩
    · have hdup : t.recons.dupacks_ = 0 := by
        by_contra hne
        exact hi (by simp [AckRecons.immediate, hne])
      rw [AckTrace.step, AckRecons.recv, if_neg hi]
      by_cases hdupl : ack = t.recons.lastRealAck_
      · rw [if_pos hdupl]
        obtain ⟨l, h1, h2, h3⟩ := AckRecons.intersperse_spec
          (r := { t.recons with dupacks_ := t.recons.dupacks_ + 1 }) h.delack ack
        refine ⟨_, _, by rw [h1]; rfl, ?_⟩
        dsimp only [Option.toList]
        rw [List.append_nil, noteReal_eq]
        refine h.scheduled hr hdup ?_ rfl rfl rfl rfl rfl h2 h3
        change 0 ≤ t.recons.dupacks_ + 1
        omega
      · rw [if_neg hdupl]
        obtain ⟨l, h1, h2, h3⟩ := AckRecons.intersperse_spec h.delack ack
        refine ⟨_, _, by rw [h1]; rfl, ?_⟩
        dsimp only [Option.toList]
        rw [List.append_nil, noteReal_eq]
        exact h.scheduled hr hdup hdup.ge rfl rfl rfl rfl rfl h2 h3

/-- A scheduled ack that a larger one has overtaken comes too late. -/
theorem not_right_of_overtaken (hk : t.recons.scheduled[k]? = some a) (hlt : t.recons.lastAck_ < a)
    (hp : ack ∈ t.passed) (ha : a < ack) : ¬ t.Right last := by
  intro hright
  have hrel := step_handle hk
  rw [if_pos hlt] at hrel
  have := (List.pairwise_append.mp (hright.release k _ _ hrel)).2.2 ack hp a (by simp)
  omega

theorem Kept.breaks (h : t.Kept last) {o : AckOp} (ho : ¬ t.Ok o) {t' : AckTrace}
    {r : Option ℤ} (hs : t.step o = some (t', r)) : ¬ t'.Right last := by
  cases o with
  | handle k => exact absurd trivial ho
  | recv ack =>
    rw [Ok] at ho
    push Not at ho
    obtain ⟨hi, hdupl, a, ha, hlt, hlt'⟩ := ho
    rw [step_immediate hi] at hs
    obtain ⟨rfl, -⟩ := Prod.mk.inj (Option.some.inj hs)
    obtain ⟨k, hk⟩ := List.getElem?_of_mem ha
    rw [noteReal_eq, AckRecons.pass, if_pos hdupl]
    exact not_right_of_overtaken hk hlt (List.mem_append_right _ (by simp)) hlt'

theorem kept_new {dupacks thresh delack : ℤ} (hd : 1 ≤ delack) :
    (new last dupacks thresh delack).Kept last where
  sorted := .nil
  covered := by simp [new]
  pending := rfl
  safe := by simp [new, AckRecons.new]
  start := le_rfl
  lastAck := .inl rfl
  lastRealAck := .inl rfl
  behind := le_rfl
  arrived_le := by simp [new]
  scheduled_le := by simp [new, AckRecons.new]
  passed_le := by simp [new]
  dupacks := by simp [new]
  garbage _ := rfl
  delack := hd

end AckTrace

end Ns2
