import Ns2.Queue.CbqChoice

/-! The class that a class-based queue serves, and that the accounting behind it comes to an end. -/

namespace Ns2

namespace CBQueue

open NextPointers

variable {s t u v : CBQueue} {fuel : ℕ} {now : ℚ} {c d : ℕ} {ring : ℤ → List ℕ} {size : ℤ}

theorem PassLevel.soft {l : List ℕ} (h : PassLevel fuel now s l t) (hs : s.Configured fuel ring) :
    Soft s t := by
  rw [PassLevel] at h
  split_ifs at h
  · rcases h with h | ⟨u, h1, h2⟩
    · exact h.soft hs
    · exact (h1.soft hs).trans h2.soft
  · induction l generalizing s with
    | nil =>
      obtain rfl : t = s := h
      exact .refl t
    | cons c l ih =>
      have hsoft := soft_putOff s now c
      have hw : ¬ (s.putOff now c).wrr = true := by
        rw [hsoft.rest]
        assumption
      exact hsoft.trans (ih (hsoft.configured hs) hw h.2)

theorem PassLevels.soft {ls : List (List ℕ)} (h : PassLevels fuel now s ls t)
    (hs : s.Configured fuel ring) : Soft s t := by
  induction ls generalizing s with
  | nil =>
    obtain rfl : t = s := h
    exact .refl t
  | cons l ls ih =>
    obtain ⟨u, hl, h⟩ := h
    have hsoft := hl.soft hs
    exact hsoft.trans (ih h (hsoft.configured hs))

/-! ### The accounting -/

variable (size now) in
theorem update_total {rank : ℕ → ℕ} (hrank : ∀ c l, (s.cls c).lender_ = some l → rank l < rank c)
    (hlink : s.link_ ≠ none) : ∀ (k c : ℕ), rank c < k → ∃ t, s.update size now k c = some t ∧
      t.last_lender_ = s.last_lender_ ∧ t.eligible_ = s.eligible_ ∧ t.active_ = s.active_ ∧
        ∀ d, (t.cls d).pri_ = (s.cls d).pri_ := by
  intro k
  induction k generalizing s with
  | zero => exact fun c hc => absurd hc (Nat.not_lt_zero _)
  | succ k ih =>
    intro c hc
    obtain ⟨b, hb⟩ := Option.ne_none_iff_exists'.mp hlink
    rw [update, hb, Option.bind_some]
    have hpri := setClass_same CBQClass.pri_ s (c := c)
      (x := (s.cls c).update size (8 * size / b) now) rfl
    have hlender := setClass_same CBQClass.lender_ s (c := c)
      (x := (s.cls c).update size (8 * size / b) now) rfl
    cases hl : ((s.setClass c ((s.cls c).update size (8 * size / b) now)).cls c).lender_ with
    | none =>
      refine ⟨s.setClass c ((s.cls c).update size (8 * size / b) now), ?_, rfl, rfl, rfl,
        congrFun hpri⟩
      dsimp only
      rw [hl]
    | some l =>
      have hlc : rank l < rank c := hrank c l ((congrFun hlender c).symm.trans hl)
      obtain ⟨t, ht, hlast, helig, hact, hpri'⟩ := ih
        (s := s.setClass c ((s.cls c).update size (8 * size / b) now))
        (fun a l hal => hrank a l ((congrFun hlender a).symm.trans hal)) hlink l (by omega)
      refine ⟨t, ?_, hlast, helig, hact, fun d => (hpri' d).trans (congrFun hpri d)⟩
      dsimp only
      rw [hl]
      exact ht

variable (size now) in
theorem depart_total {rank : ℕ → ℕ} (hrank : ∀ c l, (s.cls c).lender_ = some l → rank l < rank c)
    (hlink : s.link_ ≠ none) (hc : rank c < fuel) (hlast : s.last_lender_ ≠ none) :
    ∃ t, s.depart fuel size now c = some t ∧ t.active_ = s.active_ ∧
      ∀ d, (t.cls d).pri_ = (s.cls d).pri_ := by
  obtain ⟨t, ht, hl, -, hact, hpri⟩ := update_total now size hrank hlink fuel c hc
  rw [depart, ht, Option.bind_some]
  split_ifs
  · obtain ⟨l, hl'⟩ := Option.ne_none_iff_exists'.mp (hl ▸ hlast)
    rw [toplevel_departure, hl']
    dsimp only [Option.map_some]
    split_ifs
    · exact ⟨_, rfl, hact, hpri⟩
    · exact ⟨_, rfl, hact, hpri⟩
    · exact ⟨_, rfl, hact, hpri⟩
  · exact ⟨t, rfl, hact, hpri⟩

theorem resume_total (hq : (s.cls c).q_ ≠ none) (hp : s.pending_pkt_ = none) :
    ∃ t, s.resume c = some t ∧ t.link_ = s.link_ ∧ t.last_lender_ = s.last_lender_ ∧
      t.active_ = s.active_ ∧ (∀ d, (t.cls d).pri_ = (s.cls d).pri_) ∧
        ∀ d, (t.cls d).lender_ = (s.cls d).lender_ := by
  obtain ⟨q, hq⟩ := Option.ne_none_iff_exists'.mp hq
  rw [resume, hq, Option.bind_some]
  cases q with
  | nil => exact ⟨s, rfl, rfl, rfl, rfl, fun _ => rfl, fun _ => rfl⟩
  | cons p q =>
    dsimp only
    rw [if_neg (not_not.mpr hp)]
    exact ⟨_, rfl, rfl, rfl, rfl,
      congrFun (setClass_same CBQClass.pri_ s (c := c)
        (x := { s.cls c with q_ := some q, pkts := (s.cls c).pkts - 1 }) rfl),
      congrFun (setClass_same CBQClass.lender_ s (c := c)
        (x := { s.cls c with q_ := some q, pkts := (s.cls c).pkts - 1 }) rfl)⟩

/-- The class that is active behind the one that is served. -/
def Advances (s t : CBQueue) (c : ℕ) : Prop :=
  ∃ x, t.active_ = Function.update s.active_ (s.cls c).pri_ x ∧
    (x = (s.cls c).peer_ ∨ s.wrr = true ∧ x = some c)

variable (now) in
theorem serve_total (hs : s.Configured fuel ring) (hq : (s.cls c).q_ ≠ none) {found : Bool}
    (hlast : found = true → s.last_lender_ ≠ none) :
    ∃ t, s.serve fuel now c found = some t ∧ Advances s t c := by
  obtain ⟨rank, hrank, hlt⟩ := hs.lenders
  obtain ⟨t, ht, hlink, hl, hact, hpri, hlender⟩ := resume_total
    (s := { s with active_ := Function.update s.active_ (s.cls c).pri_ (s.cls c).peer_ }) hq hs.pending
  rw [serve, ht, Option.bind_some]
  cases t.pending_pkt_ with
  | none => exact ⟨t, rfl, _, hact, .inl rfl⟩
  | some size =>
    cases found with
    | false => exact ⟨t, rfl, _, hact, .inl rfl⟩
    | true =>
      obtain ⟨w, hw, hact', -⟩ := depart_total now size (s := t)
        (fun a l hal => hrank a l ((hlender a).symm.trans hal)) (hlink ▸ hs.link) (hlt c)
        (hl ▸ hlast rfl)
      exact ⟨w, hw, _, hact'.trans hact, .inl rfl⟩

variable (now) in
theorem serveWrr_total (hs : s.Configured fuel ring) (hw : s.wrr = true) (hq : (s.cls c).q_ ≠ none)
    {found : Bool} (hlast : found = true → s.last_lender_ ≠ none) :
    ∃ t, s.serveWrr fuel now c found = some t ∧ Advances s t c := by
  obtain ⟨rank, hrank, hlt⟩ := hs.lenders
  obtain ⟨t, ht, hlink, hl, hact, hpri, hlender⟩ := resume_total hq hs.pending
  have hnext : ∀ x, Function.update t.active_ (t.cls c).pri_ x =
      Function.update s.active_ (s.cls c).pri_ x := fun x => by rw [hact, hpri c]
  rw [serveWrr]
  dsimp only
  rw [ht, Option.bind_some]
  cases t.pending_pkt_ with
  | none => exact ⟨_, rfl, _, hnext _, .inl rfl⟩
  | some size =>
    cases found with
    | false => exact ⟨_, rfl, _, hnext _, .inl rfl⟩
    | true =>
      dsimp only
      rw [if_pos rfl]
      obtain ⟨b, hb⟩ : ∃ b : ℤ, (if (t.cls c).bytes_alloc_ > 0 then (t.cls c).bytes_alloc_ - size
        else (t.cls c).bytes_alloc_) = b := ⟨_, rfl⟩
      rw [hb]
      have hpri' := setClass_same CBQClass.pri_ t (c := c) (x := { t.cls c with bytes_alloc_ := b }) rfl
      have hlender' := setClass_same CBQClass.lender_ t (c := c)
        (x := { t.cls c with bytes_alloc_ := b }) rfl
      obtain ⟨w, hw', hact', hpriw⟩ := depart_total now size
        (s := t.setClass c { t.cls c with bytes_alloc_ := b })
        (fun a l hal => hrank a l (((congrFun hlender' a).trans (hlender a)).symm.trans hal))
        (hlink ▸ hs.link) (hlt c) (hl ▸ hlast rfl)
      rw [hw']
      refine ⟨_, rfl, if b > 0 then some c else (s.cls c).peer_, ?_, ?_⟩
      · dsimp only
        rw [hact', hpriw c, congrFun hpri' c]
        exact hnext _
      · split_ifs
        · exact .inr ⟨hw, rfl⟩
        · exact .inl rfl

/-- The scan of a configured link ends. The classes are asked level by level from the active class on;
one of the first level that is not passed over is served, or else the first class with demand that may
borrow. If no class of a level lends to another, a level is passed over only if none of its classes
is accepted. -/
theorem deque_serves (h : s.Configured fuel ring) (now : ℚ) :
    ∃ t e pkt, s.deque fuel now = some (t, e, pkt) ∧
      ((∃ ps p rs c u v, s.prios = ps ++ p :: rs ∧ PassLevels fuel now s (ps.map ring) u ∧
          ServesIn fuel now u (ring p) c v ∧ e = some c) ∨
        ∃ u, PassLevels fuel now s (s.prios.map ring) u ∧
          e = (s.prios.flatMap ring).find? s.borrows) ∧
      (∀ c, e = some c → ∃ x, t.active_ = Function.update s.active_ (s.cls c).pri_ x ∧
        (x = (s.cls c).peer_ ∨ s.wrr = true ∧ x = some c)) ∧
      ∀ ps p rs u v, s.prios = ps ++ p :: rs → PassLevels fuel now s (ps.map ring) u →
        PassLevel fuel now u (ring p) v → (∀ c ∈ ring p, ∀ d ∈ ring p, ¬ Lends s c d) →
          if s.wrr then FirstRound fuel now u (ring p) false v
          else AllRefused fuel now u (ring p) v := by
  have hserve : ∀ {t : CBQueue} {c : ℕ} (found : Bool), Soft s t → (∃ p, c ∈ ring p) →
      (found = true → t.last_lender_ ≠ none) →
      ∃ w, (if s.wrr then t.serveWrr fuel now c found else t.serve fuel now c found) = some w ∧
        ∃ x, w.active_ = Function.update s.active_ (s.cls c).pri_ x ∧
          (x = (s.cls c).peer_ ∨ s.wrr = true ∧ x = some c) := by
    intro t c found hsoft hc hlast
    obtain ⟨p, hc⟩ := hc
    have ht := hsoft.configured h
    have hact : t.active_ = s.active_ := by rw [hsoft.rest]
    have hwrr : t.wrr = s.wrr := by rw [hsoft.rest]
    have hpri : (t.cls c).pri_ = (s.cls c).pri_ := by rw [hsoft.cls c]
    have hpeer := hsoft.peer c
    split_ifs with hw
    · obtain ⟨w, hrun, x, hx, hxc⟩ := serveWrr_total now ht (hwrr.trans hw)
        (ht.queue p c hc) hlast
      rw [hact, hpri] at hx
      rw [hpeer, hwrr] at hxc
      exact ⟨w, hrun, x, hx, hxc⟩
    · obtain ⟨w, hrun, x, hx, hxc⟩ := serve_total now ht (ht.queue p c hc) hlast
      rw [hact, hpri] at hx
      rw [hpeer, hwrr] at hxc
      exact ⟨w, hrun, x, hx, hxc⟩
  have hround : ∀ ps p rs u v, s.prios = ps ++ p :: rs → PassLevels fuel now s (ps.map ring) u →
      PassLevel fuel now u (ring p) v → (∀ c ∈ ring p, ∀ d ∈ ring p, ¬ Lends s c d) →
        if s.wrr then FirstRound fuel now u (ring p) false v
        else AllRefused fuel now u (ring p) v := by
    intro ps p rs u v _ hpass hlevel hlend
    have hsoft := hpass.soft h
    have hwrr : u.wrr = s.wrr := by rw [hsoft.rest]
    rw [PassLevel, hwrr] at hlevel
    by_cases hw : s.wrr = true
    · rw [if_pos hw] at hlevel ⊢
      rcases hlevel with h1 | ⟨x, h1, h2⟩
      · exact h1
      · refine absurd h2 (second_round_finds (hsoft.configured h) (h.rings p).nodup ?_ h1)
        intro c hc d hd hcd
        exact hlend c hc d hd (Relation.TransGen.mono (fun a b hab => hsoft.lender a ▸ hab) _ _ hcd)
    · rw [if_neg hw] at hlevel ⊢
      exact hlevel
  rw [deque]
  rcases scanPrios_spec (s := ⟨s, none, 0⟩) h now s.prios with
    ⟨t, hrun, hpass, hsoft, hfirst⟩ | ⟨t, d, qs, p, rs, u, hrun, he, hpass, -, hin, hmem, hsoft, hlast⟩
  · rw [hrun, Option.bind_some]
    dsimp only
    rw [if_pos rfl]
    rw [Option.none_or] at hfirst
    change t.first = (s.prios.flatMap ring).find? s.borrows at hfirst
    cases hf : t.first with
    | none =>
      exact ⟨_, none, _, rfl, .inr ⟨t.queue, hpass, hf.symm.trans hfirst⟩, fun c hc => by (cases hc),
        hround⟩
    | some c =>
      have hc := List.mem_of_find?_eq_some (hfirst.symm.trans hf)
      obtain ⟨p, -, hc⟩ := List.mem_flatMap.mp hc
      obtain ⟨w, hw, hact⟩ := hserve false hsoft ⟨p, hc⟩ fun hno => by cases hno
      dsimp only [Option.isSome]
      rw [hw]
      refine ⟨_, some c, _, rfl, .inr ⟨t.queue, hpass, hf.symm.trans hfirst⟩, fun c' hc' => ?_, hround⟩
      obtain rfl := Option.some.inj hc'
      exact hact
  · rw [hrun, Option.bind_some]
    dsimp only
    rw [if_neg (Option.some_ne_none d)]
    obtain ⟨w, hw, hact⟩ := hserve true hsoft ⟨p, hmem⟩ fun _ => hlast
    dsimp only [Option.isSome]
    rw [hw]
    refine ⟨_, some d, _, rfl, .inl ⟨qs, p, rs, d, u, t.queue, he, hpass, hin, rfl⟩,
      fun c' hc' => ?_, hround⟩
    obtain rfl := Option.some.inj hc'
    exact hact

/-- Class 0 borrows from class 1 of its own ring, which is just at its limit at time 10; class 2 has
the next priority. No class has bytes to send. -/
def lentQueue : CBQueue := { CBQueue.new true 1000 with
  cls := fun c =>
    if c = 0 then { CBQClass.new with
      peer_ := some 1, lender_ := some 1, q_ := some [100], pkts := 1, undertime_ := 20 }
    else if c = 1 then { CBQClass.new with
      peer_ := some 0, q_ := some [100], pkts := 1, undertime_ := 10, extradelay_ := 1, level_ := 2 }
    else if c = 2 then { CBQClass.new with
      peer_ := some 2, level_peer_ := some 0, q_ := some [100], pkts := 1, pri_ := 1,
      allotment_ := 1 }
    else CBQClass.new
  link_ := some 8000
  active_ := fun p => if p = 0 then some 0 else if p = 1 then some 2 else none
  levels_ := fun v => if v = 1 then some 2 else if v = 2 then some 1 else none
  maxprio_ := 1
  maxlevel_ := 2
  eligible_ := .ANCESTORS
  M_ := fun p => if p = 1 then 1000 else 0 }

def lentRing (p : ℤ) : List ℕ := if p = 0 then [0, 1] else if p = 1 then [2] else []

theorem lentQueue_configured : lentQueue.Configured 3 lentRing := by
  have hcls : ∀ c, 3 ≤ c → lentQueue.cls c = .new := fun c hc => by
    change (if c = 0 then _ else if c = 1 then _ else if c = 2 then _ else CBQClass.new) = _
    rw [if_neg (by omega), if_neg (by omega), if_neg (by omega)]
  refine ⟨fun p => ?_, fun p => ?_, fun p => ?_, fun p c hc => ?_, fun v => ?_, ?_, by decide,
    by decide, rfl⟩
  · rw [lentRing]
    split_ifs
    · exact ⟨by decide, rfl, rfl, rfl⟩
    · exact ⟨by decide, rfl, rfl⟩
    · exact .nil
  · change (if p = 0 then some 0 else if p = 1 then some 2 else none) = _
    rw [lentRing]
    split_ifs <;> rfl
  · rw [lentRing]
    split_ifs <;> decide
  · rw [lentRing] at hc
    split_ifs at hc
    · rcases List.mem_pair.mp hc with rfl | rfl <;> decide
    · obtain rfl := List.mem_singleton.mp hc
      decide
    · cases hc
  · change ∃ l, Reaches _ none (if v = 1 then some 2 else if v = 2 then some 1 else none) l ∧ _
    split_ifs
    · exact ⟨[2, 0], ⟨rfl, rfl, rfl⟩, by decide⟩
    · exact ⟨[1], ⟨rfl, rfl⟩, by decide⟩
    · exact ⟨[], rfl, by decide⟩
  · refine ⟨fun c => if c = 0 then 1 else 0, fun c l hl => ?_, fun c => ?_⟩
    · by_cases h0 : c = 0
      · subst h0
        obtain rfl : 1 = l := Option.some.inj hl
        decide
      · have hnone : (lentQueue.cls c).lender_ = none := by
          by_cases h1 : c = 1
          · rw [h1]
            rfl
          · by_cases h2 : c = 2
            · rw [h2]
              rfl
            · rw [hcls c (by omega)]
              rfl
        rw [hnone] at hl
        cases hl
    · dsimp only
      split_ifs <;> decide

theorem deque_serves_lent : ∃ t e pkt, lentQueue.deque 3 10 = some (t, e, pkt) ∧
    ((∃ ps p rs c u v, lentQueue.prios = ps ++ p :: rs ∧
        PassLevels 3 10 lentQueue (ps.map lentRing) u ∧ ServesIn 3 10 u (lentRing p) c v ∧
          e = some c) ∨
      ∃ u, PassLevels 3 10 lentQueue (lentQueue.prios.map lentRing) u ∧
        e = (lentQueue.prios.flatMap lentRing).find? lentQueue.borrows) := by
  obtain ⟨t, e, pkt, hrun, hserve, -, -⟩ := deque_serves lentQueue_configured 10
  exact ⟨t, e, pkt, hrun, hserve⟩

/-- A class of the first level is accepted but for its bytes; then its lender is put off, it is refused
in the second round, and a class of the next level is served. -/
theorem served_of_lent : ¬ ∀ (s : CBQueue) (fuel : ℕ) (ring : ℤ → List ℕ) (now : ℚ),
    s.Configured fuel ring → ∀ p ∈ s.prios, ∀ c ∈ ring p, (∃ t, Accepted fuel now s c t) →
      ∃ t d pkt q, s.deque fuel now = some (t, some d, pkt) ∧ d ∈ ring q ∧ q ≤ p := by
  intro hall
  have hacc : ∃ t, Accepted 3 10 lentQueue 0 t := ⟨_, by decide +kernel, rfl⟩
  obtain ⟨t, d, pkt, q, hrun, hmem, hle⟩ := hall lentQueue 3 lentRing 10 lentQueue_configured 0
    (by decide) 0 (by decide) hacc
  have hserved : (lentQueue.deque 3 10).map (fun r => r.2.1) = some (some 2) := by decide +kernel
  rw [hrun, Option.map_some, Option.some_inj, Option.some_inj] at hserved
  change d = 2 at hserved
  subst hserved
  rw [lentRing] at hmem
  split_ifs at hmem with h0 h1
  · revert hmem
    decide
  · omega
  · cases hmem

end CBQueue

end Ns2
