import Ns2.Queue.CbqDeque

/-! The loops of the scan come to an end, and what the scan leaves as it is. -/

namespace Ns2

/-- Checks that may fail, one after the other, if none fails. -/
theorem allM_spec {α : Type*} {f : α → Option Bool} {l : List α} (h : ∀ x ∈ l, ∃ b, f x = some b) :
    ∃ b, l.allM f = some b ∧ (b = true ↔ ∀ x ∈ l, f x = some true) := by
  induction l with
  | nil => exact ⟨true, rfl, iff_of_true rfl (List.forall_mem_nil _)⟩
  | cons a l ih =>
    obtain ⟨b, hb⟩ := h a List.mem_cons_self
    obtain ⟨b', hb', hiff⟩ := ih fun x hx => h x (List.mem_cons_of_mem a hx)
    cases b with
    | false =>
      refine ⟨false, by simp [List.allM, hb], ?_⟩
      refine iff_of_false Bool.false_ne_true fun hall => ?_
      have := hall a List.mem_cons_self
      rw [hb] at this
      cases this
    | true =>
      refine ⟨b', by simp [List.allM, hb, hb'], ?_⟩
      rw [hiff, List.forall_mem_cons]
      exact (and_iff_right hb).symm

theorem anyM_total {α : Type*} {f : α → Option Bool} {l : List α} (h : ∀ x ∈ l, ∃ b, f x = some b) :
    ∃ b, l.anyM f = some b := by
  induction l with
  | nil => exact ⟨false, rfl⟩
  | cons a l ih =>
    obtain ⟨b, hb⟩ := h a List.mem_cons_self
    obtain ⟨b', hb'⟩ := ih fun x hx => h x (List.mem_cons_of_mem a hx)
    cases b with
    | false => exact ⟨b', by simp [List.anyM, hb, hb']⟩
    | true => exact ⟨true, by simp [List.anyM, hb]⟩

namespace CBQueue

open NextPointers

variable {s t u : CBQueue} {fuel : ℕ} {now : ℚ} {c d : ℕ} {ring : ℤ → List ℕ}

/-- A configured link: the classes of each priority form a ring, those of each level a list, and the
lenders of a class come to an end, all within the fuel. -/
structure Configured (s : CBQueue) (fuel : ℕ) (ring : ℤ → List ℕ) : Prop where
  rings : ∀ p, NextRing (fun c => (s.cls c).peer_) (ring p)
  active : ∀ p, s.active_ p = (ring p).head?
  length : ∀ p, (ring p).length ≤ fuel
  queue : ∀ p, ∀ c ∈ ring p, (s.cls c).q_ ≠ none
  levels : ∀ v, ∃ l, Reaches (fun c => (s.cls c).level_peer_) none (s.levels_ v) l ∧ l.length ≤ fuel
  lenders : ∃ rank : ℕ → ℕ, (∀ c l, (s.cls c).lender_ = some l → rank l < rank c) ∧
    ∀ c, rank c < fuel
  algorithm : s.eligible_ ≠ .NONE
  link : s.link_ ≠ none
  pending : s.pending_pkt_ = none

/-- What the scan may have changed. -/
structure Soft (s t : CBQueue) : Prop where
  cls : ∀ c, t.cls c = { s.cls c with
    undertime_ := (t.cls c).undertime_
    delayed_ := (t.cls c).delayed_
    bytes_alloc_ := (t.cls c).bytes_alloc_ }
  rest : t = { s with cls := t.cls, last_lender_ := t.last_lender_ }

theorem Soft.refl (s : CBQueue) : Soft s s := ⟨fun _ => rfl, rfl⟩

theorem Soft.trans (h : Soft s t) (h' : Soft t u) : Soft s u := by
  refine ⟨fun c => ?_, ?_⟩
  · have h1 := h'.cls c
    rw [h.cls c] at h1
    exact h1
  · have h1 := h'.rest
    rw [h.rest] at h1
    exact h1

theorem soft_setClass {x : CBQClass} (hx : x = { s.cls c with
    undertime_ := x.undertime_, delayed_ := x.delayed_, bytes_alloc_ := x.bytes_alloc_ }) :
    Soft s (s.setClass c x) := by
  refine ⟨fun d => ?_, rfl⟩
  change Function.update s.cls c x d = { s.cls d with
    undertime_ := (Function.update s.cls c x d).undertime_
    delayed_ := (Function.update s.cls c x d).delayed_
    bytes_alloc_ := (Function.update s.cls c x d).bytes_alloc_ }
  by_cases hd : d = c
  · rw [hd, Function.update_self]
    exact hx
  · rw [Function.update_of_ne hd]

theorem setClass_cls {x : CBQClass} : (s.setClass c x).cls c = x := Function.update_self _ _ _

theorem setClass_other {x : CBQClass} (h : d ≠ c) : (s.setClass c x).cls d = s.cls d :=
  Function.update_of_ne h _ _

theorem Soft.demand (h : Soft s t) (c : ℕ) : (t.cls c).demand = (s.cls c).demand := by
  rw [h.cls c]
  rfl

theorem Soft.lender (h : Soft s t) (c : ℕ) : (t.cls c).lender_ = (s.cls c).lender_ := by
  rw [h.cls c]

theorem Soft.permit (h : Soft s t) (c : ℕ) :
    (t.cls c).permit_borrowing_ = (s.cls c).permit_borrowing_ := by
  rw [h.cls c]

theorem Soft.peer (h : Soft s t) (c : ℕ) : (t.cls c).peer_ = (s.cls c).peer_ := by
  rw [h.cls c]

theorem Soft.level_peer (h : Soft s t) (c : ℕ) : (t.cls c).level_peer_ = (s.cls c).level_peer_ := by
  rw [h.cls c]

theorem Soft.level_eq (h : Soft s t) (c : ℕ) : (t.cls c).level_ = (s.cls c).level_ := by
  rw [h.cls c]

theorem Soft.q (h : Soft s t) (c : ℕ) : (t.cls c).q_ = (s.cls c).q_ := by
  rw [h.cls c]

theorem Soft.configured (h : Soft s t) (hs : s.Configured fuel ring) : t.Configured fuel ring := by
  have hrest := h.rest
  refine ⟨fun p => (hs.rings p).congr fun c _ => h.peer c, fun p => ?_, hs.length, fun p c hc => ?_,
    fun v => ?_, ?_, ?_, ?_, ?_⟩
  · rw [hrest]
    exact hs.active p
  · rw [h.q c]
    exact hs.queue p c hc
  · obtain ⟨l, hl, hlen⟩ := hs.levels v
    refine ⟨l, ?_, hlen⟩
    have hhead : t.levels_ v = s.levels_ v := by rw [hrest]
    rw [hhead]
    exact hl.congr fun c _ => h.level_peer c
  · obtain ⟨rank, hrank, hlt⟩ := hs.lenders
    exact ⟨rank, fun c l hcl => hrank c l (h.lender c ▸ hcl), hlt⟩
  · rw [hrest]
    exact hs.algorithm
  · rw [hrest]
    exact hs.link
  · rw [hrest]
    exact hs.pending

/-! ### The tests do not fail -/

theorem ancestor_total {rank : ℕ → ℕ} (hrank : ∀ c l, (s.cls c).lender_ = some l → rank l < rank c)
    (a : ℕ) : ∀ (fuel p : ℕ), rank p < fuel → ∃ b, s.ancestor a fuel p = some b := by
  intro fuel
  induction fuel with
  | zero => exact fun p hp => absurd hp (Nat.not_lt_zero _)
  | succ fuel ih =>
    intro p hp
    rw [ancestor]
    cases hl : (s.cls p).lender_ with
    | none => exact ⟨false, rfl⟩
    | some l =>
      dsimp only
      split_ifs
      · exact ⟨false, rfl⟩
      · exact ⟨true, rfl⟩
      · have := hrank p l hl
        exact ih l (by omega)

theorem Configured.level (h : s.Configured fuel ring) (v : ℤ) : ∃ l, s.level fuel v = some l := by
  obtain ⟨l, hl, hlen⟩ := h.levels v
  exact ⟨l, follow_eq hl hlen⟩

theorem Configured.desc_with_demand (h : s.Configured fuel ring) (c : ℕ) :
    ∃ b, s.desc_with_demand fuel c = some b := by
  obtain ⟨l, hl⟩ := h.level 1
  obtain ⟨rank, hrank, hlt⟩ := h.lenders
  rw [CBQueue.desc_with_demand, hl, Option.bind_some]
  refine anyM_total fun p _ => ?_
  split_ifs
  · exact ancestor_total hrank c fuel p (hlt p)
  · exact ⟨false, rfl⟩

theorem Configured.satisfied (h : s.Configured fuel ring) (now : ℚ) (c : ℕ) :
    ∃ b, s.satisfied fuel now c = some b := by
  rw [CBQueue.satisfied]
  split_ifs
  · exact ⟨_, rfl⟩
  · obtain ⟨b, hb⟩ := h.desc_with_demand c
    rw [hb]
    exact ⟨!b, rfl⟩
  · exact ⟨true, rfl⟩

theorem Configured.eligible_formal (h : s.Configured fuel ring) (now : ℚ) (c : ℕ) :
    ∃ b, s.eligible_formal fuel now c = some b ∧ (b = true ↔
      ∀ k ∈ List.range ((s.cls c).level_ - 1).toNat, ∀ l, s.level fuel (k + 1) = some l →
        ∀ p ∈ l, s.satisfied fuel now p = some true) := by
  have hlevel : ∀ k ∈ List.range ((s.cls c).level_ - 1).toNat,
      ∃ b, ((s.level fuel (k + 1)).bind (·.allM (s.satisfied fuel now))) = some b ∧ (b = true ↔
        ∀ l, s.level fuel (k + 1) = some l → ∀ p ∈ l, s.satisfied fuel now p = some true) :=
    fun k _ => by
      obtain ⟨l, hl⟩ := h.level (k + 1)
      obtain ⟨b, hb, hiff⟩ := allM_spec fun p (_ : p ∈ l) => h.satisfied now p
      refine ⟨b, by rw [hl, Option.bind_some, hb], hiff.trans ⟨fun hall l' hl' => ?_, fun hall => ?_⟩⟩
      · rw [hl] at hl'
        exact Option.some.inj hl' ▸ hall
      · exact hall l hl
  obtain ⟨b, hb, hiff⟩ := allM_spec fun k hk => ⟨_, (hlevel k hk).choose_spec.1⟩
  refine ⟨b, by rw [CBQueue.eligible_formal]; exact hb, hiff.trans (forall₂_congr fun k hk => ?_)⟩
  obtain ⟨b', hb', hiff'⟩ := hlevel k hk
  rw [hb', ← hiff', Option.some_inj]

theorem Configured.eligible (h : s.Configured fuel ring) (now : ℚ) (c : ℕ) :
    ∃ b, s.eligible fuel now c = some b := by
  rw [CBQueue.eligible]
  cases ha : s.eligible_ with
  | NONE => exact absurd ha h.algorithm
  | FORMAL =>
    obtain ⟨b, hb, -⟩ := h.eligible_formal now c
    exact ⟨b, hb⟩
  | ANCESTORS => exact ⟨true, rfl⟩
  | TOPLEVEL => exact ⟨_, rfl⟩

theorem Configured.findLender (h : s.Configured fuel ring) (now : ℚ) {rank : ℕ → ℕ}
    (hrank : ∀ c l, (s.cls c).lender_ = some l → rank l < rank c) :
    ∀ (k : ℕ) (o : Option ℕ), (∀ c ∈ o, rank c < k) → ∃ r, s.findLender fuel now k o = some r := by
  intro k
  induction k with
  | zero =>
    intro o ho
    cases o with
    | none => exact ⟨none, rfl⟩
    | some c => exact absurd (ho c rfl) (Nat.not_lt_zero _)
  | succ k ih =>
    intro o ho
    cases o with
    | none => exact ⟨none, rfl⟩
    | some c =>
      have hc := ho c rfl
      have hnext : ∃ r, s.findLender fuel now k (s.cls c).lender_ = some r := ih _ fun l hl => by
        have := hrank c l hl
        omega
      rw [CBQueue.findLender]
      split_ifs
      · exact ⟨none, rfl⟩
      · exact hnext
      · obtain ⟨b, hb⟩ := h.eligible now c
        rw [hb, Option.bind_some]
        split_ifs
        · exact ⟨some c, rfl⟩
        · exact hnext

theorem Configured.find_lender (h : s.Configured fuel ring) (now : ℚ) (c : ℕ) :
    ∃ r, s.find_lender fuel now c = some r := by
  obtain ⟨rank, hrank, hlt⟩ := h.lenders
  rw [CBQueue.find_lender]
  split_ifs
  · exact ⟨none, rfl⟩
  · exact h.findLender now hrank fuel _ fun l _ => hlt l

/-- The test never fails; a class that is refused leaves everything as it is. -/
theorem Configured.send_permitted (h : s.Configured fuel ring) (now : ℚ) (c : ℕ) :
    s.send_permitted fuel now c = some (s, false) ∨
      ∃ t, s.send_permitted fuel now c = some (t, true) ∧ Soft s t ∧ t.last_lender_ ≠ none ∧
        (∀ d, t.cls d = { s.cls d with delayed_ := (t.cls d).delayed_ }) ∧
          ∀ d ≠ c, t.cls d = s.cls d := by
  rw [CBQueue.send_permitted]
  split_ifs
  · have hsoft : Soft s (s.setClass c { s.cls c with delayed_ := false }) := soft_setClass rfl
    refine .inr ⟨_, rfl, ⟨hsoft.cls, rfl⟩, Option.some_ne_none c, fun d => ?_,
      fun d hd => setClass_other hd⟩
    by_cases hd : d = c
    · have he := setClass_cls (s := s) (c := c) (x := { s.cls c with delayed_ := false })
      rw [hd]
      change (s.setClass c { s.cls c with delayed_ := false }).cls c = { s.cls c with
        delayed_ := ((s.setClass c { s.cls c with delayed_ := false }).cls c).delayed_ }
      rw [he]
    · have he := setClass_other (s := s) (x := { s.cls c with delayed_ := false }) hd
      change (s.setClass c { s.cls c with delayed_ := false }).cls d = { s.cls d with
        delayed_ := ((s.setClass c { s.cls c with delayed_ := false }).cls d).delayed_ }
      rw [he]
  · obtain ⟨r, hr⟩ := h.find_lender now c
    rw [hr]
    cases r with
    | none => exact .inl rfl
    | some l => exact .inr ⟨_, rfl, ⟨fun _ => rfl, rfl⟩, Option.some_ne_none l, fun _ => rfl,
        fun _ _ => rfl⟩
  · exact .inl rfl

end CBQueue

end Ns2
