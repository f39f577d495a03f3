import Ns2.Queue.CbqScan

/-! Which class a class-based queue serves: the classes are asked in the order of the rings, level by
level, and a class that is refused is put off before the next one is asked. -/

namespace Ns2

namespace CBQueue

open NextPointers

variable {s t u v : CBQueue} {fuel k : ℕ} {now : ℚ} {c d : ℕ} {ring : ℤ → List ℕ} {l : List ℕ}
  {b : Bool}

/-! ### What the scan does -/

def putOff (s : CBQueue) (now : ℚ) (c : ℕ) : CBQueue :=
  if (s.cls c).demand then s.delayed now c else s

/-- The class has no demand or is refused. -/
def Refused (fuel : ℕ) (now : ℚ) (s : CBQueue) (c : ℕ) : Prop :=
  (s.cls c).demand = true → s.send_permitted fuel now c = some (s, false)

def Accepted (fuel : ℕ) (now : ℚ) (s : CBQueue) (c : ℕ) (t : CBQueue) : Prop :=
  (s.cls c).demand = true ∧ s.send_permitted fuel now c = some (t, true)

/-- No class of a list is accepted. -/
def AllRefused (fuel : ℕ) (now : ℚ) : CBQueue → List ℕ → CBQueue → Prop
  | s, [], t => t = s
  | s, c :: l, t => Refused fuel now s c ∧ AllRefused fuel now (s.putOff now c) l t

/-- The class with the weight of its round. -/
def weighed (s : CBQueue) (c : ℕ) : CBQueue := (weigh ⟨s, none, 0⟩ c).queue

def cleared (s : CBQueue) (c : ℕ) : CBQueue := s.setClass c { s.cls c with bytes_alloc_ := 0 }

/-- The first round over a list with weights, and whether a class is accepted but for its bytes. -/
def FirstRound (fuel : ℕ) (now : ℚ) : CBQueue → List ℕ → Bool → CBQueue → Prop
  | s, [], b, t => b = false ∧ t = s
  | s, c :: l, b, t =>
    Refused fuel now (s.weighed c) c ∧
        FirstRound fuel now (((s.weighed c).putOff now c).cleared c) l b t ∨
      ∃ u b', Accepted fuel now (s.weighed c) c u ∧ ((s.weighed c).cls c).bytes_alloc_ ≤ 0 ∧
        b = true ∧ FirstRound fuel now (u.cleared c) l b' t

/-- The second round over a list with weights. -/
def SecondRound (fuel : ℕ) (now : ℚ) : CBQueue → List ℕ → CBQueue → Prop
  | s, [], t => t = s
  | s, c :: l, t => Refused fuel now s c ∧ SecondRound fuel now ((s.putOff now c).cleared c) l t

/-- The ring of a level is passed over. -/
def PassLevel (fuel : ℕ) (now : ℚ) (s : CBQueue) (l : List ℕ) (t : CBQueue) : Prop :=
  if s.wrr then
    FirstRound fuel now s l false t ∨
      ∃ u, FirstRound fuel now s l true u ∧ SecondRound fuel now u l t
  else AllRefused fuel now s l t

def PassLevels (fuel : ℕ) (now : ℚ) : CBQueue → List (List ℕ) → CBQueue → Prop
  | s, [], t => t = s
  | s, l :: ls, t => ∃ u, PassLevel fuel now s l u ∧ PassLevels fuel now u ls t

/-- The class of the ring that is served. -/
def ServesIn (fuel : ℕ) (now : ℚ) (s : CBQueue) (l : List ℕ) (c : ℕ) (t : CBQueue) : Prop :=
  if s.wrr then
    (∃ pre post b u, l = pre ++ c :: post ∧ FirstRound fuel now s pre b u ∧
      Accepted fuel now (u.weighed c) c t ∧ 0 < ((u.weighed c).cls c).bytes_alloc_) ∨
    ∃ pre post u v, l = pre ++ c :: post ∧ FirstRound fuel now s l true u ∧
      SecondRound fuel now u pre v ∧ Accepted fuel now v c t
  else ∃ pre post u, l = pre ++ c :: post ∧ AllRefused fuel now s pre u ∧ Accepted fuel now u c t

/-- A class with demand that may borrow from a lender. -/
def borrows (s : CBQueue) (c : ℕ) : Bool :=
  (s.cls c).demand && (s.cls c).permit_borrowing_ && (s.cls c).lender_.isSome

/-! ### The classes of a ring are visited in turn -/

theorem Soft.borrows (h : Soft s t) (c : ℕ) : t.borrows c = s.borrows c := by
  rw [CBQueue.borrows, CBQueue.borrows, h.demand, h.permit, h.lender]

theorem soft_delayed (s : CBQueue) (now : ℚ) (c : ℕ) : Soft s (s.delayed now c) := by
  apply soft_setClass
  rw [CBQClass.delayed]
  split_ifs <;> rfl

theorem soft_putOff (s : CBQueue) (now : ℚ) (c : ℕ) : Soft s (s.putOff now c) := by
  rw [putOff]
  split_ifs
  · exact soft_delayed s now c
  · exact .refl s

theorem soft_cleared (s : CBQueue) (c : ℕ) : Soft s (s.cleared c) := soft_setClass rfl

theorem soft_weighed (s : CBQueue) (c : ℕ) : Soft s (s.weighed c) := by
  rw [weighed, weigh]
  dsimp only
  split_ifs
  · exact soft_setClass rfl
  · exact .refl s

/-- Every class of the list is visited and not found. -/
def Passed (visit : Scan → ℕ → Option (Scan × Bool)) : Scan → List ℕ → Scan → Prop
  | s, [], t => t = s
  | s, c :: l, t => ∃ u, visit s c = some (u, false) ∧ Passed visit u l t

/-- The loop visits the classes of the ring in turn, until one is found. -/
theorem scanRing_spec {nullEnds : Bool} {visit : Scan → ℕ → Option (Scan × Bool)} {start : ℕ}
    {next : ℕ → Option ℕ} {P : Scan → Prop} (hnext : ∀ s c, P s → (s.queue.cls c).peer_ = next c)
    (hvisit : ∀ s c, P s → ∃ t b, visit s c = some (t, b) ∧ P t) {s : Scan} (hs : P s)
    (hl : Reaches next (some start) (next c) l) (hstart : start ∉ l) (hk : l.length < k) :
    (∃ t, scanRing nullEnds visit start k s c = some (t, false, some start) ∧
      Passed visit s (c :: l) t ∧ P t) ∨
    ∃ t u pre d post, scanRing nullEnds visit start k s c = some (t, true, some d) ∧
      c :: l = pre ++ d :: post ∧ Passed visit s pre u ∧ P u ∧ visit u d = some (t, true) ∧ P t := by
  induction l generalizing s c k with
  | nil =>
    obtain ⟨k, rfl⟩ : ∃ j, k = j + 1 := ⟨k - 1, by omega⟩
    obtain ⟨t, b, hv, ht⟩ := hvisit s c hs
    rw [scanRing, hv, Option.bind_some]
    cases b with
    | true => exact .inr ⟨t, s, [], c, [], rfl, rfl, rfl, hs, hv, ht⟩
    | false =>
      rw [if_neg Bool.false_ne_true]
      have hpeer : (t.queue.cls c).peer_ = some start := (hnext t c ht).trans hl
      rw [hpeer]
      exact .inl ⟨t, if_pos rfl, ⟨t, hv, rfl⟩, ht⟩
  | cons d l ih =>
    obtain ⟨k, rfl⟩ : ∃ j, k = j + 1 := ⟨k - 1, by omega⟩
    obtain ⟨t, b, hv, ht⟩ := hvisit s c hs
    rw [scanRing, hv, Option.bind_some]
    cases b with
    | true => exact .inr ⟨t, s, [], c, d :: l, rfl, rfl, rfl, hs, hv, ht⟩
    | false =>
      rw [if_neg Bool.false_ne_true]
      obtain ⟨hd, hl⟩ := hl
      have hpeer : (t.queue.cls c).peer_ = some d := (hnext t c ht).trans hd
      have hne : d ≠ start := fun he => hstart (he ▸ List.mem_cons_self)
      rw [hpeer]
      dsimp only
      rw [if_neg hne]
      rw [List.length_cons] at hk
      rcases ih (k := k) ht hl (fun hno => hstart (List.mem_cons_of_mem d hno)) (by omega) with
        ⟨w, hrun, hpass, hw⟩ | ⟨w, u, pre, e, post, hrun, he, hpass, hu, hve, hw⟩
      · exact .inl ⟨w, hrun, ⟨t, hv, hpass⟩, hw⟩
      · exact .inr ⟨w, u, c :: pre, e, post, hrun, congrArg (c :: ·) he, ⟨t, hv, hpass⟩, hu, hve, hw⟩

theorem setFirst_queue (s : Scan) (c : ℕ) : (s.setFirst c).queue = s.queue := by
  rw [Scan.setFirst]
  split_ifs <;> rfl

theorem setFirst_deficit (s : Scan) (c : ℕ) : (s.setFirst c).deficit = s.deficit := by
  rw [Scan.setFirst]
  split_ifs <;> rfl

/-- The first class that may borrow. -/
theorem setFirst_first {s : Scan} (h : (s.queue.cls c).demand = true) :
    (s.setFirst c).first = s.first.or ([c].find? s.queue.borrows) := by
  have hb : s.queue.borrows c =
      ((s.queue.cls c).permit_borrowing_ && (s.queue.cls c).lender_.isSome) := by
    rw [CBQueue.borrows, h, Bool.true_and]
  rw [Scan.setFirst]
  cases hf : s.first with
  | some a => rw [if_neg fun hno => by cases hno.1]; exact hf
  | none =>
    rw [Option.none_or, List.find?_singleton, hb]
    by_cases hc : (s.queue.cls c).permit_borrowing_ = true ∧ (s.queue.cls c).lender_ ≠ none
    · rw [if_pos ⟨rfl, hc⟩, if_pos (by simpa [Option.isSome_iff_ne_none] using hc)]
    · rw [if_neg fun hno => hc hno.2, if_neg (by simpa [Option.isSome_iff_ne_none] using hc)]
      exact hf

theorem find_borrows_of_idle (h : ¬ (s.cls c).demand = true) : [c].find? s.borrows = none := by
  rw [List.find?_singleton, if_neg]
  rw [CBQueue.borrows, Bool.eq_false_of_not_eq_true h]
  exact Bool.false_ne_true

/-- One class without weights. -/
theorem visit_spec {s : Scan} (h : s.queue.Configured fuel ring) (now : ℚ) (c : ℕ) :
    ∃ t b, visit fuel now s c = some (t, b) ∧ Soft s.queue t.queue ∧
      (b = false → Refused fuel now s.queue c ∧ t.queue = s.queue.putOff now c ∧
        t.first = s.first.or ([c].find? s.queue.borrows)) ∧
      (b = true → Accepted fuel now s.queue c t.queue ∧ t.queue.last_lender_ ≠ none) := by
  rw [visit]
  by_cases hd : (s.queue.cls c).demand = true
  · rw [if_pos hd]
    dsimp only
    rw [setFirst_queue]
    rcases h.send_permitted now c with hf | ⟨t, ht, hsoft, hlast, -⟩
    · rw [hf]
      refine ⟨_, false, rfl, soft_delayed s.queue now c, fun _ => ⟨fun _ => hf, ?_, ?_⟩,
        fun hno => by cases hno⟩
      · rw [putOff, if_pos hd]
      · exact setFirst_first hd
    · rw [ht]
      exact ⟨_, true, rfl, hsoft, fun hno => by (cases hno), fun _ => ⟨⟨hd, ht⟩, hlast⟩⟩
  · rw [if_neg hd]
    refine ⟨s, false, rfl, .refl _, fun _ => ⟨fun hno => absurd hno hd, ?_, ?_⟩, fun hno => by cases hno⟩
    · rw [putOff, if_neg hd]
    · rw [find_borrows_of_idle hd, Option.or_none]

theorem weigh_queue {s : Scan} (h : s.deficit < 2) : (weigh s c).queue = s.queue.weighed c := by
  rw [weighed, weigh, weigh]
  dsimp only
  by_cases hb : (s.queue.cls c).bytes_alloc_ ≤ 0
  · rw [if_pos ⟨h, hb⟩, if_pos ⟨by decide, hb⟩]
  · rw [if_neg fun hno => hb hno.2, if_neg fun hno => hb hno.2]

theorem weigh_second {s : Scan} (h : s.deficit = 2) : weigh s c = s := by
  rw [weigh]
  dsimp only
  exact if_neg fun hno => by omega

theorem weigh_first (s : Scan) (c : ℕ) : (weigh s c).first = s.first ∧
    (weigh s c).deficit = s.deficit := by
  rw [weigh]
  dsimp only
  split_ifs <;> exact ⟨rfl, rfl⟩

/-- One class with weights, once its weight is known. -/
theorem visitWrr_spec {s : Scan} (h : s.queue.Configured fuel ring) (now : ℚ) (c : ℕ) {q : CBQueue}
    (hq : (weigh s c).queue = q) (hsoft : Soft s.queue q) :
    ∃ t b, visitWrr fuel now s c = some (t, b) ∧ Soft s.queue t.queue ∧
      (b = false → t.first = s.first.or ([c].find? s.queue.borrows) ∧
        (Refused fuel now q c ∧ t.queue = (q.putOff now c).cleared c ∧ t.deficit = s.deficit ∨
          ∃ u, Accepted fuel now q c u ∧ (q.cls c).bytes_alloc_ ≤ 0 ∧ s.deficit ≤ 1 ∧
            t.queue = u.cleared c ∧ t.deficit = 1)) ∧
      (b = true → Accepted fuel now q c t.queue ∧ t.queue.last_lender_ ≠ none ∧
        (0 < (q.cls c).bytes_alloc_ ∨ 1 < s.deficit)) := by
  obtain ⟨hfirst, hdeficit⟩ := weigh_first s c
  have hborrows : s.queue.borrows = q.borrows := funext fun d => (hsoft.borrows d).symm
  rw [visitWrr]
  dsimp only
  rw [hq]
  by_cases hd : (q.cls c).demand = true
  · have hset : ((weigh s c).setFirst c).first = s.first.or ([c].find? s.queue.borrows) := by
      rw [setFirst_first (by rw [hq]; exact hd), hfirst, hq, hborrows]
    rw [if_pos hd, setFirst_queue, hq, setFirst_deficit, hdeficit]
    rcases (hsoft.configured h).send_permitted now c with hf | ⟨t, ht, hsoft', hlast, hcls, -⟩
    · rw [hf]
      refine ⟨_, false, rfl, ?_, fun _ => ⟨hset, .inl ⟨fun _ => hf, ?_, ?_⟩⟩, fun hno => by cases hno⟩
      · exact (hsoft.trans (soft_delayed q now c)).trans (soft_cleared _ c)
      · rw [putOff, if_pos hd]
        rfl
      · rfl
    · have hbytes : (t.cls c).bytes_alloc_ = (q.cls c).bytes_alloc_ := by rw [hcls c]
      rw [ht, Option.map_some]
      dsimp only
      rw [if_pos rfl, hbytes]
      by_cases hserve : (q.cls c).bytes_alloc_ > 0 ∨ s.deficit > 1
      · rw [if_pos hserve]
        exact ⟨_, true, rfl, hsoft.trans hsoft', fun hno => by (cases hno),
          fun _ => ⟨⟨hd, ht⟩, hlast, hserve⟩⟩
      · obtain ⟨h1, h2⟩ := not_or.mp hserve
        rw [if_neg hserve]
        exact ⟨_, false, rfl, (hsoft.trans hsoft').trans (soft_cleared t c), fun _ => ⟨hset,
          .inr ⟨t, ⟨hd, ht⟩, not_lt.mp h1, not_lt.mp h2, rfl, rfl⟩⟩, fun hno => by cases hno⟩
  · rw [if_neg hd]
    refine ⟨_, false, rfl, ?_, fun _ => ⟨?_, .inl ⟨fun hno => absurd hno hd, ?_, hdeficit⟩⟩,
      fun hno => by cases hno⟩
    · have hc : (clearBytes (weigh s c) c).queue = q.cleared c := by rw [clearBytes, hq]; rfl
      rw [hc]
      exact hsoft.trans (soft_cleared q c)
    · rw [hborrows, find_borrows_of_idle hd, Option.or_none]
      exact hfirst
    · rw [putOff, if_neg hd, clearBytes, hq]
      rfl

/-- The classes that are passed over without weights. -/
theorem passed_visit {s t : Scan} (h : s.queue.Configured fuel ring)
    (hp : Passed (visit fuel now) s l t) :
    AllRefused fuel now s.queue l t.queue ∧ Soft s.queue t.queue ∧
      t.first = s.first.or (l.find? s.queue.borrows) := by
  induction l generalizing s with
  | nil =>
    obtain rfl : t = s := hp
    exact ⟨rfl, .refl _, (Option.or_none).symm⟩
  | cons c l ih =>
    obtain ⟨u, hu, hp⟩ := hp
    obtain ⟨u', b, hv, hsoft, hpass, -⟩ := visit_spec h now c
    obtain ⟨rfl, rfl⟩ := Prod.mk.inj (Option.some.inj (hv.symm.trans hu))
    obtain ⟨href, hqueue, hfirst⟩ := hpass rfl
    obtain ⟨hall, hsoft', hfirst'⟩ := ih (hsoft.configured h) hp
    have hborrows : u'.queue.borrows = s.queue.borrows := funext fun d => hsoft.borrows d
    refine ⟨⟨href, hqueue ▸ hall⟩, hsoft.trans hsoft', ?_⟩
    rw [hfirst', hfirst, hborrows, Option.or_assoc, ← List.find?_append, List.singleton_append]

/-- The classes that are passed over in the first round with weights. -/
theorem passed_first {s t : Scan} (h : s.queue.Configured fuel ring) (hdeficit : s.deficit < 2)
    (hp : Passed (visitWrr fuel now) s l t) :
    (∃ b, FirstRound fuel now s.queue l b t.queue ∧
      (b = false ∧ t.deficit = s.deficit ∨ b = true ∧ t.deficit = 1)) ∧ Soft s.queue t.queue ∧
      t.first = s.first.or (l.find? s.queue.borrows) := by
  induction l generalizing s with
  | nil =>
    obtain rfl : t = s := hp
    exact ⟨⟨false, ⟨rfl, rfl⟩, .inl ⟨rfl, rfl⟩⟩, .refl _, (Option.or_none).symm⟩
  | cons c l ih =>
    obtain ⟨u, hu, hp⟩ := hp
    obtain ⟨u', b, hv, hsoft, hpass, -⟩ := visitWrr_spec h now c (weigh_queue hdeficit)
      (soft_weighed s.queue c)
    obtain ⟨rfl, rfl⟩ := Prod.mk.inj (Option.some.inj (hv.symm.trans hu))
    obtain ⟨hfirst, hcase⟩ := hpass rfl
    have hborrows : u'.queue.borrows = s.queue.borrows := funext fun d => hsoft.borrows d
    have hstep : ∀ d : Option ℕ, d = u'.first.or (l.find? u'.queue.borrows) →
        d = s.first.or ((c :: l).find? s.queue.borrows) := fun d hd => by
      rw [hd, hfirst, hborrows, Option.or_assoc, ← List.find?_append, List.singleton_append]
    rcases hcase with ⟨href, hqueue, hdef⟩ | ⟨w, hacc, hbytes, -, hqueue, hdef⟩
    · obtain ⟨⟨b, hround, hb⟩, hsoft', hfirst'⟩ := ih (hsoft.configured h) (by omega) hp
      rw [hdef] at hb
      exact ⟨⟨b, .inl ⟨href, hqueue ▸ hround⟩, hb⟩, hsoft.trans hsoft', hstep _ hfirst'⟩
    · obtain ⟨⟨b, hround, hb⟩, hsoft', hfirst'⟩ := ih (hsoft.configured h) (by omega) hp
      refine ⟨⟨true, .inr ⟨w, b, hacc, hbytes, rfl, hqueue ▸ hround⟩, .inr ⟨rfl, ?_⟩⟩,
        hsoft.trans hsoft', hstep _ hfirst'⟩
      rcases hb with ⟨-, hb⟩ | ⟨-, hb⟩
      · exact hb.trans hdef
      · exact hb

/-- The classes that are passed over in the second round. -/
theorem passed_second {s t : Scan} (h : s.queue.Configured fuel ring) (hdeficit : s.deficit = 2)
    (hp : Passed (visitWrr fuel now) s l t) :
    SecondRound fuel now s.queue l t.queue ∧ t.deficit = 2 ∧ Soft s.queue t.queue ∧
      t.first = s.first.or (l.find? s.queue.borrows) := by
  induction l generalizing s with
  | nil =>
    obtain rfl : t = s := hp
    exact ⟨rfl, hdeficit, .refl _, (Option.or_none).symm⟩
  | cons c l ih =>
    obtain ⟨u, hu, hp⟩ := hp
    obtain ⟨u', b, hv, hsoft, hpass, -⟩ := visitWrr_spec h now c
      (by rw [weigh_second hdeficit]) (.refl _)
    obtain ⟨rfl, rfl⟩ := Prod.mk.inj (Option.some.inj (hv.symm.trans hu))
    obtain ⟨hfirst, hcase⟩ := hpass rfl
    have hborrows : u'.queue.borrows = s.queue.borrows := funext fun d => hsoft.borrows d
    rcases hcase with ⟨href, hqueue, hdef⟩ | ⟨w, -, -, hle, -⟩
    · obtain ⟨hround, hdef', hsoft', hfirst'⟩ := ih (hsoft.configured h) (hdef.trans hdeficit) hp
      refine ⟨⟨href, hqueue ▸ hround⟩, hdef', hsoft.trans hsoft', ?_⟩
      rw [hfirst', hfirst, hborrows, Option.or_assoc, ← List.find?_append, List.singleton_append]
    · omega

/-- The loop around the ring of a level. -/
theorem scanLevel_ring (nullEnds : Bool) {f : Scan → ℕ → Option (Scan × Bool)} {s : Scan}
    (h : s.queue.Configured fuel ring) {p : ℤ} (hring : ring p = c :: l)
    (hf : ∀ (u : Scan) d, u.queue.Configured fuel ring → ∃ t b, f u d = some (t, b) ∧
      Soft u.queue t.queue) :
    (∃ t, scanRing nullEnds f c fuel s c = some (t, false, some c) ∧ Passed f s (ring p) t) ∨
    ∃ t u pre d post, scanRing nullEnds f c fuel s c = some (t, true, some d) ∧
      ring p = pre ++ d :: post ∧ Passed f s pre u ∧ f u d = some (t, true) := by
  have hr := h.rings p
  have hlen := h.length p
  rw [hring] at hr hlen
  obtain ⟨-, hnext⟩ := hr.reaches
  rw [hring]
  have hvisit : ∀ (u : Scan) d, Soft s.queue u.queue →
      ∃ t b, f u d = some (t, b) ∧ Soft s.queue t.queue := fun u d hu => by
    obtain ⟨t, b, ht, hsoft⟩ := hf u d (hu.configured h)
    exact ⟨t, b, ht, hu.trans hsoft⟩
  rcases @scanRing_spec fuel c l nullEnds f c (fun d => (s.queue.cls d).peer_)
      (fun u => Soft s.queue u.queue) (fun u d hu => hu.peer d) hvisit s (.refl _) hnext
      (List.nodup_cons.mp hr.nodup).1 hlen with
    ⟨t, hrun, hpass, -⟩ | ⟨t, u, pre, d, post, hrun, he, hpass, -, hv, -⟩
  · exact .inl ⟨t, hrun, hpass⟩
  · exact .inr ⟨t, u, pre, d, post, hrun, he, hpass, hv⟩

/-- One level: its ring is passed over, or one of its classes is found. -/
theorem scanLevel_spec {s : Scan} (h : s.queue.Configured fuel ring) (now : ℚ) {p : ℤ}
    (hring : ring p = c :: l) :
    (∃ t, scanLevel fuel now s c = some (t, none) ∧ PassLevel fuel now s.queue (ring p) t.queue ∧
      Soft s.queue t.queue ∧ t.first = s.first.or ((ring p).find? s.queue.borrows)) ∨
    ∃ t d, scanLevel fuel now s c = some (t, some d) ∧
      ServesIn fuel now s.queue (ring p) d t.queue ∧ d ∈ ring p ∧ Soft s.queue t.queue ∧
      t.queue.last_lender_ ≠ none := by
  rw [scanLevel]
  by_cases hw : s.queue.wrr = true
  swap
  · rw [if_neg hw]
    rcases scanLevel_ring false (f := visit fuel now) h hring (fun u d hu => by
        obtain ⟨t, b, ht, hsoft, -⟩ := visit_spec hu now d
        exact ⟨t, b, ht, hsoft⟩) with ⟨t, hrun, hpass⟩ | ⟨t, u, pre, d, post, hrun, he, hpass, hv⟩
    · rw [hrun]
      obtain ⟨hall, hsoft, hfirst⟩ := passed_visit h hpass
      refine .inl ⟨t, rfl, ?_, hsoft, hfirst⟩
      rw [PassLevel, if_neg hw]
      exact hall
    · rw [hrun]
      obtain ⟨hall, hsoft, -⟩ := passed_visit h hpass
      obtain ⟨t', b, ht', hsoft', -, hacc⟩ := visit_spec (hsoft.configured h) now d
      obtain ⟨rfl, rfl⟩ := Prod.mk.inj (Option.some.inj (ht'.symm.trans hv))
      refine .inr ⟨t', d, rfl, ?_, he ▸ by simp, hsoft.trans hsoft', (hacc rfl).2⟩
      rw [ServesIn, if_neg hw]
      exact ⟨pre, post, u.queue, he, hall, (hacc rfl).1⟩
  · rw [if_pos hw]
    have hwrr : ∀ (u : Scan) d, u.queue.Configured fuel ring →
        ∃ t b, visitWrr fuel now u d = some (t, b) ∧ Soft u.queue t.queue := fun u d hu => by
      have hsoft : Soft u.queue (weigh u d).queue := by
        rw [weigh]
        dsimp only
        split_ifs
        · exact soft_setClass rfl
        · exact .refl _
      obtain ⟨t, b, ht, hsoft', -⟩ := visitWrr_spec hu now d rfl hsoft
      exact ⟨t, b, ht, hsoft'⟩
    have h0 : ({ s with deficit := 0 } : Scan).queue.Configured fuel ring := h
    rcases scanLevel_ring true (s := { s with deficit := 0 }) h0 hring hwrr with
      ⟨t, hrun, hpass⟩ | ⟨t, u, pre, d, post, hrun, he, hpass, hv⟩
    swap
    · -- a class is found in the first round
      rw [hrun]
      obtain ⟨⟨b, hround, hb⟩, hsoft, -⟩ := passed_first h0 Nat.zero_lt_two hpass
      have hu : u.deficit < 2 := by
        dsimp only at hb
        omega
      obtain ⟨t', b', ht', hsoft', -, hacc⟩ := visitWrr_spec (hsoft.configured h) now d
        (weigh_queue hu) (soft_weighed u.queue d)
      obtain ⟨rfl, rfl⟩ := Prod.mk.inj (Option.some.inj (ht'.symm.trans hv))
      obtain ⟨hacc, hlast, hbytes⟩ := hacc rfl
      refine .inr ⟨t', d, rfl, ?_, he ▸ by simp, hsoft.trans hsoft', hlast⟩
      rw [ServesIn, if_pos hw]
      exact .inl ⟨pre, post, b, u.queue, he, hround, hacc, hbytes.resolve_right (by omega)⟩
    · rw [hrun, Option.bind_some]
      dsimp only
      rw [if_neg Bool.false_ne_true]
      obtain ⟨⟨b, hround, hb⟩, hsoft, hfirst⟩ := passed_first h0 Nat.zero_lt_two hpass
      rcases hb with ⟨rfl, hb⟩ | ⟨rfl, hb⟩
      · rw [if_neg (by rw [hb]; exact Nat.zero_ne_one)]
        refine .inl ⟨t, rfl, ?_, hsoft, hfirst⟩
        rw [PassLevel, if_pos hw]
        exact .inl hround
      · -- a class is accepted but for its bytes
        rw [if_pos hb, Option.bind_some]
        have h2 : ({ t with deficit := 2 } : Scan).queue.Configured fuel ring :=
          hsoft.configured h
        rcases scanLevel_ring true (s := { t with deficit := 2 }) h2 hring hwrr with
          ⟨w, hrun2, hpass2⟩ | ⟨w, u, pre, d, post, hrun2, he, hpass2, hv⟩
        · rw [hrun2]
          obtain ⟨hround2, -, hsoft2, hfirst2⟩ := passed_second h2 rfl hpass2
          refine .inl ⟨w, rfl, ?_, hsoft.trans hsoft2, ?_⟩
          · rw [PassLevel, if_pos hw]
            exact .inr ⟨t.queue, hround, hround2⟩
          · have hborrows : t.queue.borrows = s.queue.borrows := funext fun d => hsoft.borrows d
            rw [hfirst2]
            dsimp only
            rw [hfirst, hborrows, Option.or_assoc, Option.or_self]
        · rw [hrun2]
          obtain ⟨hround2, hdef, hsoft2, -⟩ := passed_second h2 rfl hpass2
          obtain ⟨t', b', ht', hsoft', -, hacc⟩ := visitWrr_spec (hsoft2.configured h2) now d
            (by rw [weigh_second hdef]) (.refl _)
          obtain ⟨rfl, rfl⟩ := Prod.mk.inj (Option.some.inj (ht'.symm.trans hv))
          obtain ⟨hacc, hlast, -⟩ := hacc rfl
          refine .inr ⟨t', d, rfl, ?_, he ▸ by simp, (hsoft.trans hsoft2).trans hsoft', hlast⟩
          rw [ServesIn, if_pos hw]
          exact .inr ⟨pre, post, t.queue, u.queue, he, hround, hround2, hacc⟩

/-- All levels: they are passed over, or a class of the first level that is not is found. -/
theorem scanPrios_spec {s : Scan} (h : s.queue.Configured fuel ring) (now : ℚ) (ps : List ℤ) :
    (∃ t, scanPrios fuel now ps s = some (t, none) ∧
      PassLevels fuel now s.queue (ps.map ring) t.queue ∧ Soft s.queue t.queue ∧
      t.first = s.first.or ((ps.flatMap ring).find? s.queue.borrows)) ∨
    ∃ t d qs p rs u, scanPrios fuel now ps s = some (t, some d) ∧ ps = qs ++ p :: rs ∧
      PassLevels fuel now s.queue (qs.map ring) u ∧ Soft s.queue u ∧
      ServesIn fuel now u (ring p) d t.queue ∧ d ∈ ring p ∧ Soft s.queue t.queue ∧
      t.queue.last_lender_ ≠ none := by
  induction ps generalizing s with
  | nil => exact .inl ⟨s, rfl, rfl, .refl _, (Option.or_none).symm⟩
  | cons p ps ih =>
    have hactive := h.active p
    rw [scanPrios]
    cases hl : ring p with
    | nil =>
      rw [hl] at hactive
      change s.queue.active_ p = none at hactive
      have hpass : PassLevel fuel now s.queue (ring p) s.queue := by
        rw [hl, PassLevel]
        split_ifs
        · exact .inl ⟨rfl, rfl⟩
        · rfl
      rw [hactive]
      rcases ih h with ⟨t, hrun, hall, hsoft, hfirst⟩ |
        ⟨t, d, qs, q, rs, u, hrun, he, hall, hsu, hserve, hmem, hsoft, hlast⟩
      · refine .inl ⟨t, hrun, ⟨s.queue, hpass, hall⟩, hsoft, ?_⟩
        rw [List.flatMap_cons, hl, List.nil_append]
        exact hfirst
      · exact .inr ⟨t, d, p :: qs, q, rs, u, hrun, congrArg (p :: ·) he, ⟨s.queue, hpass, hall⟩,
          hsu, hserve, hmem, hsoft, hlast⟩
    | cons c l =>
      rw [hl] at hactive
      change s.queue.active_ p = some c at hactive
      rw [hactive]
      dsimp only
      rcases scanLevel_spec h now hl with ⟨t, hrun, hpass, hsoft, hfirst⟩ |
        ⟨t, d, hrun, hserve, hmem, hsoft, hlast⟩
      · rw [hrun, Option.bind_some, if_pos rfl]
        have hborrows : t.queue.borrows = s.queue.borrows := funext fun d => hsoft.borrows d
        rcases ih (hsoft.configured h) with ⟨w, hrun', hall, hsoft', hfirst'⟩ |
          ⟨w, d, qs, q, rs, u, hrun', he, hall, hsu, hserve, hmem, hsoft', hlast⟩
        · refine .inl ⟨w, hrun', ⟨t.queue, hpass, hall⟩, hsoft.trans hsoft', ?_⟩
          rw [hfirst', hfirst, hborrows, Option.or_assoc, ← List.find?_append, List.flatMap_cons]
        · exact .inr ⟨w, d, p :: qs, q, rs, u, hrun', congrArg (p :: ·) he,
            ⟨t.queue, hpass, hall⟩, hsoft.trans hsu, hserve, hmem, hsoft.trans hsoft', hlast⟩
      · rw [hrun, Option.bind_some, if_neg (Option.some_ne_none d)]
        exact .inr ⟨t, d, [], p, ps, s.queue, rfl, rfl, rfl, .refl _, hserve, hmem, hsoft, hlast⟩

/-! ### The second round -/

/-- A class lends to another, directly or through others. -/
def Lends (s : CBQueue) (c d : ℕ) : Prop :=
  Relation.TransGen (fun a b => (s.cls a).lender_ = some b) c d

theorem delayed_delayed (x : CBQClass) (now : ℚ) : (x.delayed now).delayed now = x.delayed now := by
  by_cases h : x.undertime_ - now + x.extradelay_ > 0 ∧ x.delayed_ = false
  · have hx : (x.delayed now).delayed_ = true := by rw [CBQClass.delayed, if_pos h]
    rw [CBQClass.delayed, if_neg fun hno => by rw [hx] at hno; cases hno.2]
  · have hx : x.delayed now = x := if_neg h
    rw [hx, hx]

theorem putOff_other (h : d ≠ c) : (s.putOff now c).cls d = s.cls d := by
  rw [putOff]
  split_ifs
  · exact setClass_other h
  · rfl

theorem cleared_other (h : d ≠ c) : (s.cleared c).cls d = s.cls d := setClass_other h

theorem weighed_other (h : d ≠ c) : (s.weighed c).cls d = s.cls d := by
  rw [weighed, weigh]
  dsimp only
  split_ifs
  · exact setClass_other h
  · rfl

/-- Weights and bytes do not matter for the permission. -/
theorem weighed_cls (s : CBQueue) (c d : ℕ) :
    ∃ b, (s.weighed c).cls d = { s.cls d with bytes_alloc_ := b } := by
  by_cases hd : d = c
  · rw [hd, weighed, weigh]
    dsimp only
    split_ifs
    · exact ⟨_, setClass_cls⟩
    · exact ⟨_, rfl⟩
  · exact ⟨_, weighed_other hd⟩

theorem cleared_cls (s : CBQueue) (c d : ℕ) :
    ∃ b, (s.cleared c).cls d = { s.cls d with bytes_alloc_ := b } := by
  by_cases hd : d = c
  · rw [hd]
    exact ⟨0, setClass_cls⟩
  · exact ⟨_, cleared_other hd⟩

theorem delayed_bytes (x : CBQClass) (now : ℚ) (b : ℤ) :
    ({ x with bytes_alloc_ := b } : CBQClass).delayed now =
      { x.delayed now with bytes_alloc_ := b } := by
  rw [CBQClass.delayed, CBQClass.delayed]
  dsimp only
  split_ifs <;> rfl

theorem Accepted.spec (h : Accepted fuel now s c t) (hs : s.Configured fuel ring) :
    Soft s t ∧ t.last_lender_ ≠ none ∧
      (∀ d, t.cls d = { s.cls d with delayed_ := (t.cls d).delayed_ }) ∧
        ∀ d ≠ c, t.cls d = s.cls d := by
  rcases hs.send_permitted now c with hno | ⟨w, hw, hspec⟩
  · have hcontra := hno.symm.trans h.2
    cases hcontra
  · obtain ⟨rfl, -⟩ := Prod.mk.inj (Option.some.inj (hw.symm.trans h.2))
    exact hspec

theorem FirstRound.soft (h : FirstRound fuel now s l b t) (hs : s.Configured fuel ring) : Soft s t := by
  induction l generalizing s b with
  | nil =>
    obtain ⟨-, rfl⟩ := h
    exact .refl t
  | cons c l ih =>
    have hw := soft_weighed s c
    rcases h with ⟨-, h⟩ | ⟨u, b', hacc, -, -, h⟩
    · have hsoft := (hw.trans (soft_putOff _ now c)).trans (soft_cleared _ c)
      exact hsoft.trans (ih h (hsoft.configured hs))
    · obtain ⟨hsu, -⟩ := hacc.spec (hw.configured hs)
      have hsoft := (hw.trans hsu).trans (soft_cleared u c)
      exact hsoft.trans (ih h (hsoft.configured hs))

theorem SecondRound.soft (h : SecondRound fuel now s l t) : Soft s t := by
  induction l generalizing s with
  | nil =>
    obtain rfl : t = s := h
    exact .refl t
  | cons c l ih =>
    exact ((soft_putOff s now c).trans (soft_cleared _ c)).trans (ih h.2)

/-- A round does not touch the classes of other rings. -/
theorem FirstRound.other (h : FirstRound fuel now s l b t) (hs : s.Configured fuel ring) (hd : d ∉ l) :
    t.cls d = s.cls d := by
  induction l generalizing s b with
  | nil =>
    obtain ⟨-, rfl⟩ := h
    rfl
  | cons c l ih =>
    obtain ⟨hdc, hdl⟩ := not_or.mp (List.mem_cons.not.mp hd)
    have hw := soft_weighed s c
    rcases h with ⟨-, h⟩ | ⟨u, b', hacc, -, -, h⟩
    · have hsoft := (hw.trans (soft_putOff _ now c)).trans (soft_cleared _ c)
      rw [ih h (hsoft.configured hs) hdl, cleared_other hdc, putOff_other hdc, weighed_other hdc]
    · obtain ⟨hsu, -, -, hother⟩ := hacc.spec (hw.configured hs)
      have hsoft := (hw.trans hsu).trans (soft_cleared u c)
      rw [ih h (hsoft.configured hs) hdl, cleared_other hdc, hother d hdc, weighed_other hdc]

theorem SecondRound.other (h : SecondRound fuel now s l t) (hd : d ∉ l) : t.cls d = s.cls d := by
  induction l generalizing s with
  | nil =>
    obtain rfl : t = s := h
    rfl
  | cons c l ih =>
    obtain ⟨hdc, hdl⟩ := not_or.mp (List.mem_cons.not.mp hd)
    rw [ih h.2 hdl, cleared_other hdc, putOff_other hdc]

/-- The first class that is accepted in the first round. -/
theorem FirstRound.split (h : FirstRound fuel now s l true t) : ∃ pre c post u w b,
    l = pre ++ c :: post ∧ FirstRound fuel now s pre false u ∧
      Accepted fuel now (u.weighed c) c w ∧ FirstRound fuel now (w.cleared c) post b t := by
  induction l generalizing s with
  | nil => cases h.1
  | cons c l ih =>
    rcases h with ⟨href, h⟩ | ⟨u, b', hacc, -, -, h⟩
    · obtain ⟨pre, d, post, u, w, b, he, hpre, hacc, hpost⟩ := ih h
      exact ⟨c :: pre, d, post, u, w, b, congrArg (c :: ·) he, .inl ⟨href, hpre⟩, hacc, hpost⟩
    · exact ⟨[], c, l, s, u, b', rfl, ⟨rfl, rfl⟩, hacc, h⟩

theorem SecondRound.append {m : List ℕ} (h : SecondRound fuel now s (l ++ m) t) :
    ∃ u, SecondRound fuel now s l u ∧ SecondRound fuel now u m t := by
  induction l generalizing s with
  | nil => exact ⟨s, rfl, h⟩
  | cons c l ih =>
    obtain ⟨u, hl, hm⟩ := ih h.2
    exact ⟨u, ⟨h.1, hl⟩, hm⟩

/-- To put off a class once more does not change when it may send. -/
def Settled (now : ℚ) (x : CBQClass) : Prop := (x.delayed now).undertime_ = x.undertime_

theorem settled_bytes {x : CBQClass} {b : ℤ} :
    Settled now { x with bytes_alloc_ := b } ↔ Settled now x := by
  rw [Settled, Settled, delayed_bytes]

theorem putOff_cls (h : (s.cls c).demand = true) : (s.putOff now c).cls c = (s.cls c).delayed now := by
  rw [putOff, if_pos h]
  exact setClass_cls

theorem putOff_idle (h : ¬ (s.cls c).demand = true) : s.putOff now c = s := if_neg h

/-- The classes that the first round refuses are settled. -/
theorem FirstRound.settled (h : FirstRound fuel now s l false t) (hs : s.Configured fuel ring)
    (hl : l.Nodup) (hd : d ∈ l) (hdemand : (s.cls d).demand = true) : Settled now (t.cls d) := by
  induction l generalizing s with
  | nil => cases hd
  | cons c l ih =>
    obtain ⟨hcl, hl⟩ := List.nodup_cons.mp hl
    rcases h with ⟨-, h⟩ | ⟨u, b', -, -, hb, -⟩
    · have hsoft := ((soft_weighed s c).trans (soft_putOff _ now c)).trans (soft_cleared _ c)
      rcases List.mem_cons.mp hd with rfl | hd
      · have hdw : ((s.weighed d).cls d).demand = true := by
          rw [(soft_weighed s d).demand]
          exact hdemand
        obtain ⟨b, hb⟩ := cleared_cls ((s.weighed d).putOff now d) d d
        rw [h.other (hsoft.configured hs) hcl, hb, settled_bytes, putOff_cls hdw, Settled,
          delayed_delayed]
      · exact ih h (hsoft.configured hs) hl hd (by rw [hsoft.demand]; exact hdemand)
    · cases hb

/-- The second round leaves a settled class as it is. -/
theorem SecondRound.undertime (h : SecondRound fuel now s l t) (hl : l.Nodup)
    (hd : d ∈ l → (s.cls d).demand = true → Settled now (s.cls d)) :
    (t.cls d).undertime_ = (s.cls d).undertime_ := by
  induction l generalizing s with
  | nil =>
    obtain rfl : t = s := h
    rfl
  | cons c l ih =>
    obtain ⟨hcl, hl⟩ := List.nodup_cons.mp hl
    by_cases hdc : d = c
    · subst hdc
      obtain ⟨b, hb⟩ := cleared_cls (s.putOff now d) d d
      rw [h.2.other hcl, hb]
      by_cases hdemand : (s.cls d).demand = true
      · rw [putOff_cls hdemand]
        exact hd List.mem_cons_self hdemand
      · rw [putOff_idle hdemand]
    · have he : ((s.putOff now c).cleared c).cls d = s.cls d := by
        rw [cleared_other hdc, putOff_other hdc]
      rw [ih h.2 hl (fun hdl => by rw [he]; exact hd (List.mem_cons_of_mem c hdl)), he]

/-- A class that the second round comes to with demand is over its limit. -/
theorem SecondRound.overlimit (h : SecondRound fuel now s l t) (hd : d ∈ l) (hl : l.Nodup)
    (hdemand : (s.cls d).demand = true) : ¬ (s.cls d).undertime_ < now := by
  induction l generalizing s with
  | nil => cases hd
  | cons c l ih =>
    obtain ⟨hcl, hl⟩ := List.nodup_cons.mp hl
    by_cases hdc : d = c
    · subst hdc
      intro hlt
      have href := h.1 hdemand
      rw [send_permitted, if_pos hlt] at href
      exact Bool.noConfusion (Prod.mk.inj (Option.some.inj href)).2
    · have he : ((s.putOff now c).cleared c).cls d = s.cls d := by
        rw [cleared_other hdc, putOff_other hdc]
      have := ih h.2 ((List.mem_cons.mp hd).resolve_left hdc) hl (by rw [he]; exact hdemand)
      rw [he] at this
      exact this

/-- A class that the first round does not put off is as it was. -/
theorem FirstRound.idle (h : FirstRound fuel now s l b t) (hs : s.Configured fuel ring)
    (hd : ¬ (s.cls d).demand = true) : (t.cls d).undertime_ = (s.cls d).undertime_ := by
  induction l generalizing s b with
  | nil =>
    obtain ⟨-, rfl⟩ := h
    rfl
  | cons c l ih =>
    have hw := soft_weighed s c
    obtain ⟨b1, hb1⟩ := weighed_cls s c d
    rcases h with ⟨-, h⟩ | ⟨u, b', hacc, -, -, h⟩
    · have hsoft := (hw.trans (soft_putOff _ now c)).trans (soft_cleared _ c)
      obtain ⟨b2, hb2⟩ := cleared_cls ((s.weighed c).putOff now c) c d
      have hput : ((s.weighed c).putOff now c).cls d = (s.weighed c).cls d := by
        by_cases hdc : d = c
        · subst hdc
          rw [putOff_idle (by rw [hw.demand]; exact hd)]
        · exact putOff_other hdc
      rw [ih h (hsoft.configured hs) (by rw [hsoft.demand]; exact hd), hb2, hput, hb1]
    · obtain ⟨hsu, -, hcls, -⟩ := hacc.spec (hw.configured hs)
      have hsoft := (hw.trans hsu).trans (soft_cleared u c)
      obtain ⟨b2, hb2⟩ := cleared_cls u c d
      rw [ih h (hsoft.configured hs) (by rw [hsoft.demand]; exact hd), hb2, hcls d, hb1]

theorem Soft.ancestor (h : Soft s t) (a : ℕ) : ∀ (k p : ℕ), t.ancestor a k p = s.ancestor a k p := by
  intro k
  induction k with
  | zero => exact fun _ => rfl
  | succ k ih =>
    intro p
    rw [CBQueue.ancestor, CBQueue.ancestor, h.lender, h.permit]
    cases (s.cls p).lender_ with
    | none => rfl
    | some l =>
      dsimp only
      rw [ih l]

theorem Soft.level (h : Soft s t) (k : ℕ) (v : ℤ) : t.level k v = s.level k v := by
  have hpeer : (fun c => (t.cls c).level_peer_) = fun c => (s.cls c).level_peer_ :=
    funext h.level_peer
  have hlevels : t.levels_ = s.levels_ := by rw [h.rest]
  rw [CBQueue.level, CBQueue.level, hpeer, hlevels]

theorem Soft.desc_with_demand (h : Soft s t) (k c : ℕ) :
    t.desc_with_demand k c = s.desc_with_demand k c := by
  have htest : (fun p => if (t.cls p).demand then t.ancestor c k p else some false) =
      fun p => if (s.cls p).demand then s.ancestor c k p else some false := by
    funext p
    rw [h.demand, h.ancestor]
  rw [CBQueue.desc_with_demand, CBQueue.desc_with_demand, h.level, htest]

theorem Soft.leaf (h : Soft s t) (c : ℕ) : (t.cls c).leaf = (s.cls c).leaf := by
  rw [CBQClass.leaf, CBQClass.leaf, h.level_eq]

/-- A class stays satisfied while its time to send is the same, or has come to be ahead. -/
theorem Soft.satisfied (h : Soft s t) {p : ℕ}
    (hu : (t.cls p).undertime_ = (s.cls p).undertime_ ∨ ¬ (t.cls p).undertime_ < now)
    (hs : s.satisfied fuel now p = some true) : t.satisfied fuel now p = some true := by
  rw [CBQueue.satisfied] at hs ⊢
  rw [h.leaf, h.demand, h.desc_with_demand]
  rcases hu with hu | hu
  · rw [hu]
    exact hs
  · rw [decide_eq_false hu, Bool.false_and, if_neg hu]
    split_ifs <;> rfl

theorem Soft.eligible (h : Soft s t) (hs : s.Configured fuel ring)
    (hu : ∀ p, (t.cls p).undertime_ = (s.cls p).undertime_ ∨ ¬ (t.cls p).undertime_ < now)
    (he : s.eligible fuel now c = some true) : t.eligible fuel now c = some true := by
  have halg : t.eligible_ = s.eligible_ := by rw [h.rest]
  have htop : t.toplevel_ = s.toplevel_ := by rw [h.rest]
  rw [CBQueue.eligible] at he ⊢
  rw [halg]
  cases ha : s.eligible_ with
  | NONE =>
    rw [ha] at he
    cases he
  | ANCESTORS => rfl
  | TOPLEVEL =>
    rw [ha] at he
    dsimp only at he ⊢
    rw [h.level_eq, htop]
    exact he
  | FORMAL =>
    rw [ha] at he
    dsimp only at he ⊢
    obtain ⟨b, hb, hiff⟩ := hs.eligible_formal now c
    obtain ⟨b', hb', hiff'⟩ := (h.configured hs).eligible_formal now c
    rw [hb, Option.some_inj] at he
    rw [hb', Option.some_inj, hiff']
    intro k hk l hl p hp
    rw [h.level_eq] at hk
    rw [h.level] at hl
    exact h.satisfied (hu p) (hiff.mp he k hk l hl p hp)

/-- A lender is still found while the lenders that a class may come to are as they were. -/
theorem Soft.findLender (h : Soft s t) (hs : s.Configured fuel ring)
    (hu : ∀ p, (t.cls p).undertime_ = (s.cls p).undertime_ ∨ ¬ (t.cls p).undertime_ < now) :
    ∀ (k : ℕ) (o : Option ℕ), (∀ a ∈ o, ∀ m, Relation.ReflTransGen
        (fun a b => (s.cls a).lender_ = some b) a m → (t.cls m).undertime_ = (s.cls m).undertime_) →
      ∀ {x : ℕ}, s.findLender fuel now k o = some (some x) →
        ∃ y, t.findLender fuel now k o = some (some y) := by
  have halg : t.eligible_ = s.eligible_ := by rw [h.rest]
  have htop : t.toplevel_ = s.toplevel_ := by rw [h.rest]
  intro k
  induction k with
  | zero =>
    intro o _ x hx
    cases o with
    | none => cases hx
    | some a => cases hx
  | succ k ih =>
    intro o ho x hx
    cases o with
    | none => cases hx
    | some a =>
      have hsame := ho a rfl a .refl
      have hnext : ∀ b ∈ (s.cls a).lender_, ∀ m, Relation.ReflTransGen
          (fun a b => (s.cls a).lender_ = some b) b m →
            (t.cls m).undertime_ = (s.cls m).undertime_ := fun b hb m hm =>
        ho a rfl m (Relation.ReflTransGen.head hb hm)
      rw [CBQueue.findLender] at hx ⊢
      rw [hsame, halg, htop, h.level_eq, h.lender]
      by_cases hover : (s.cls a).undertime_ > now
      · rw [if_pos hover] at hx ⊢
        by_cases hearly : s.eligible_ = .TOPLEVEL ∧ (s.cls a).level_ > s.toplevel_
        · rw [if_pos hearly] at hx
          cases hx
        · rw [if_neg hearly] at hx ⊢
          exact ih _ hnext hx
      · rw [if_neg hover] at hx ⊢
        obtain ⟨b, hb⟩ := hs.eligible now a
        obtain ⟨b', hb'⟩ := (h.configured hs).eligible now a
        rw [hb', Option.bind_some]
        cases b' with
        | true => exact ⟨a, rfl⟩
        | false =>
          cases b with
          | true =>
            rw [h.eligible hs hu hb] at hb'
            cases hb'
          | false =>
            rw [hb, Option.bind_some] at hx
            exact ih _ hnext hx

/-- If no class of the ring lends to another, the second round finds a class. -/
theorem second_round_finds (hs : s.Configured fuel ring) (hl : l.Nodup)
    (hlend : ∀ c ∈ l, ∀ d ∈ l, ¬ Lends s c d) (h1 : FirstRound fuel now s l true t) :
    ¬ SecondRound fuel now t l v := by
  intro h2
  obtain ⟨pre, c, post, u, w, b, rfl, hpre, hacc, hpost⟩ := h1.split
  obtain ⟨y, h2pre, h2post⟩ := h2.append
  obtain ⟨hndpre, hndpost, hdisj⟩ := List.nodup_append.mp hl
  obtain ⟨hcpost, hndpost'⟩ := List.nodup_cons.mp hndpost
  have hcpre : c ∉ pre := fun hc => hdisj c hc c List.mem_cons_self rfl
  have hsu := hpre.soft hs
  have hsq := hsu.trans (soft_weighed u c)
  obtain ⟨hqw, -, hwcls, hwother⟩ := hacc.spec (hsq.configured hs)
  have hsw := (hsq.trans hqw).trans (soft_cleared w c)
  have hst := hsw.trans (hpost.soft (hsw.configured hs))
  have hqy : Soft (u.weighed c) y :=
    ((hqw.trans (soft_cleared w c)).trans (hpost.soft (hsw.configured hs))).trans h2pre.soft
  -- only a class behind the accepted one has another time to send, and it is ahead
  have hsame : ∀ p, p ∉ post → (y.cls p).undertime_ = ((u.weighed c).cls p).undertime_ := by
    intro p hp
    obtain ⟨b1, hb1⟩ := weighed_cls u c p
    obtain ⟨b2, hb2⟩ := cleared_cls w c p
    have htp : (t.cls p).undertime_ = ((u.weighed c).cls p).undertime_ := by
      rw [hpost.other (hsw.configured hs) hp, hb2, hwcls p]
    rw [← htp]
    refine h2pre.undertime hndpre fun hpp hdemand => ?_
    have hpc : p ≠ c := fun he => hcpre (he ▸ hpp)
    rw [hpost.other (hsw.configured hs) hp, cleared_other hpc, hwother p hpc, weighed_other hpc]
    refine hpre.settled hs hndpre hpp ?_
    rw [hst.demand] at hdemand
    exact hdemand
  have hall : ∀ p, (y.cls p).undertime_ = ((u.weighed c).cls p).undertime_ ∨
      ¬ (y.cls p).undertime_ < now := by
    intro p
    by_cases hp : p ∈ post
    · by_cases hdemand : (y.cls p).demand = true
      · exact .inr (h2post.overlimit (List.mem_cons_of_mem c hp) hndpost hdemand)
      · left
        have hppre : p ∉ pre := fun hpp => hdisj p hpp p (List.mem_cons_of_mem c hp) rfl
        obtain ⟨b2, hb2⟩ := cleared_cls w c p
        have hwy := (hpost.soft (hsw.configured hs)).trans h2pre.soft
        rw [h2pre.other hppre, hpost.idle (hsw.configured hs) (hwy.demand p ▸ hdemand), hb2, hwcls p]
    · exact .inl (hsame p hp)
  have hdemand : (y.cls c).demand = true := by
    rw [hqy.demand]
    exact hacc.1
  have href := h2post.1 hdemand
  have hperm := hacc.2
  rw [send_permitted, hsame c hcpost, hqy.permit] at href
  rw [send_permitted] at hperm
  by_cases hunder : ((u.weighed c).cls c).undertime_ < now
  · rw [if_pos hunder] at href
    exact Bool.noConfusion (Prod.mk.inj (Option.some.inj href)).2
  rw [if_neg hunder] at href hperm
  by_cases hborrow : ((u.weighed c).cls c).permit_borrowing_ = true
  swap
  · rw [if_neg hborrow] at hperm
    exact Bool.noConfusion (Prod.mk.inj (Option.some.inj hperm)).2
  rw [if_pos hborrow] at href hperm
  have hb : ¬ ((u.weighed c).cls c).permit_borrowing_ = false := fun hno =>
    Bool.false_ne_true (hno.symm.trans hborrow)
  obtain ⟨o, ho, he⟩ := Option.map_eq_some_iff.mp hperm
  obtain ⟨o', ho', he'⟩ := Option.map_eq_some_iff.mp href
  rw [find_lender, if_neg hb] at ho
  rw [find_lender, hqy.permit, if_neg hb, hqy.lender] at ho'
  cases o with
  | none =>
    rw [if_pos rfl] at he
    exact Bool.noConfusion (Prod.mk.inj he).2
  | some x =>
    obtain ⟨z, hz⟩ := hqy.findLender (hsq.configured hs) hall fuel _ (fun a ha m hm => by
      refine hsame m fun hm' => ?_
      have hchain : Relation.TransGen (fun a b => (s.cls a).lender_ = some b) c m := by
        have hstep : ∀ a b, ((u.weighed c).cls a).lender_ = some b → (s.cls a).lender_ = some b :=
          fun a b hab => hsq.lender a ▸ hab
        exact Relation.TransGen.head' (hstep c a ha) (Relation.ReflTransGen.mono hstep _ _ hm)
      exact hlend c (by simp) m (by simp [hm']) hchain) ho
    rw [hz, Option.some_inj] at ho'
    rw [← ho', if_neg (Option.some_ne_none z)] at he'
    exact Bool.noConfusion (Prod.mk.inj he').2

end CBQueue

end Ns2
