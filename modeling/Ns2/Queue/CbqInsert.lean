import Ns2.Lib.Machine
import Ns2.Queue.Cbq

/-! Runs of insertions into a class-based queue: the rings, the levels, the allotments and the counts
while insertions are accepted and rejected. -/

namespace Ns2

open NextPointers

/-- A class as it is configured when it is inserted, and the link. -/
structure CbqInsert where
  cl : ℕ
  pri_ : ℤ
  level_ : ℤ
  allotment_ : ℚ
  q_ : Option (List ℤ)
  link_ : Option ℚ
  deriving DecidableEq

namespace CBQueue

def configure (s : CBQueue) (i : CbqInsert) : CBQueue :=
  { s.setClass i.cl { s.cls i.cl with
      pri_ := i.pri_
      level_ := i.level_
      allotment_ := i.allotment_
      q_ := i.q_ } with
    link_ := i.link_ }

/-- Every ring holds the classes of its priority. -/
def Rings (P : ℤ → ℕ → Prop) (s : CBQueue) : Prop :=
  ∀ p, ∃ l, NextRing (fun c => (s.cls c).peer_) l ∧ s.active_ p = l.head? ∧ ∀ c, c ∈ l ↔ P p c

/-- Every list holds the classes of its level. -/
def Levels (P : ℤ → ℕ → Prop) (s : CBQueue) : Prop :=
  ∀ v, ∃ l, l.Nodup ∧ Reaches (fun c => (s.cls c).level_peer_) none (s.levels_ v) l ∧
    ∀ c, c ∈ l ↔ P v c

variable {P Q : ℤ → ℕ → Prop} {s t : CBQueue} {p : ℕ} {v : ℤ}

theorem setPeer_peer (s : CBQueue) (c : ℕ) (x : Option ℕ) :
    (fun d => ((s.setPeer c x).cls d).peer_) = Function.update (fun d => (s.cls d).peer_) c x :=
  setClass_map CBQClass.peer_ s c _

theorem setPeer_level_peer (s : CBQueue) (c : ℕ) (x : Option ℕ) (d : ℕ) :
    ((s.setPeer c x).cls d).level_peer_ = (s.cls d).level_peer_ :=
  congrFun (setClass_same CBQClass.level_peer_ s (c := c) (x := { s.cls c with peer_ := x }) rfl) d

theorem setLevelPeer_level_peer (s : CBQueue) (c : ℕ) (x : Option ℕ) :
    (fun d => ((s.setLevelPeer c x).cls d).level_peer_) =
      Function.update (fun d => (s.cls d).level_peer_) c x :=
  setClass_map CBQClass.level_peer_ s c _

theorem Rings.congr (h : s.Rings P) (hpeer : ∀ c, (t.cls c).peer_ = (s.cls c).peer_)
    (hactive : t.active_ = s.active_) : t.Rings P := by
  have he : (fun c => (t.cls c).peer_) = fun c => (s.cls c).peer_ := funext hpeer
  rw [Rings, he, hactive]
  exact h

theorem Levels.congr (h : s.Levels P) (hpeer : ∀ c, (t.cls c).level_peer_ = (s.cls c).level_peer_)
    (hlevels : t.levels_ = s.levels_) : t.Levels P := by
  have he : (fun c => (t.cls c).level_peer_) = fun c => (s.cls c).level_peer_ := funext hpeer
  rw [Levels, he, hlevels]
  exact h

theorem insertPeer_levels (s : CBQueue) (p : ℕ) :
    (∀ c, ((s.insertPeer p).cls c).level_peer_ = (s.cls c).level_peer_) ∧
      (s.insertPeer p).levels_ = s.levels_ := by
  rw [insertPeer]
  dsimp only
  cases s.active_ (s.cls p).pri_ with
  | none => exact ⟨setPeer_level_peer s p _, rfl⟩
  | some a =>
    refine ⟨fun c => ?_, rfl⟩
    exact (setPeer_level_peer _ a _ c).trans (setPeer_level_peer s p _ c)

theorem insertLevel_peers (s : CBQueue) (p : ℕ) :
    (∀ c, ((s.insertLevel p).cls c).peer_ = (s.cls c).peer_) ∧
      (s.insertLevel p).active_ = s.active_ :=
  ⟨congrFun (setClass_same CBQClass.peer_ s (c := p)
    (x := { s.cls p with level_peer_ := s.levels_ (s.cls p).level_ }) rfl), rfl⟩

theorem insertLevel_pri (s : CBQueue) (p : ℕ) : ((s.insertLevel p).cls p).pri_ = (s.cls p).pri_ :=
  congrFun (setClass_same CBQClass.pri_ s (c := p)
    (x := { s.cls p with level_peer_ := s.levels_ (s.cls p).level_ }) rfl) p

/-- A new class in the ring of its priority. -/
theorem Rings.insert (h : s.Rings P) (hdisj : ∀ q q' c, P q c → P q' c → q = q')
    (hnew : ∀ q, ¬ P q p) :
    (s.insertPeer p).Rings fun q c => P q c ∨ q = (s.cls p).pri_ ∧ c = p := by
  intro q
  obtain ⟨l, hl, hhead, hmem⟩ := h q
  have hp : p ∉ l := fun hpl => hnew q ((hmem p).mp hpl)
  rw [insertPeer]
  dsimp only
  cases ha : s.active_ (s.cls p).pri_ with
  | none =>
    dsimp only
    rw [setPeer_peer]
    by_cases hq : q = (s.cls p).pri_
    · rw [← hq] at ha ⊢
      rw [ha] at hhead
      obtain rfl : l = [] := List.head?_eq_none_iff.mp hhead.symm
      refine ⟨[p], .singleton (Function.update_self _ _ _), Function.update_self _ _ _, fun c => ?_⟩
      rw [← hmem c]
      simp
    · refine ⟨l, hl.congr fun a hal => ?_, ?_, fun c => ?_⟩
      · have hap : a ≠ p := fun he => hp (he ▸ hal)
        exact Function.update_of_ne hap _ _
      · rw [Function.update_of_ne hq]
        exact hhead
      · rw [hmem c, or_iff_left fun hno => hq hno.1]
  | some a =>
    dsimp only
    rw [setPeer_peer, setPeer_peer]
    by_cases hq : q = (s.cls p).pri_
    · rw [← hq] at ha ⊢
      rw [ha] at hhead
      obtain ⟨t, rfl⟩ : ∃ t, l = a :: t := by
        cases l with
        | nil => cases hhead
        | cons b t => exact ⟨t, by rw [Option.some.inj hhead]⟩
      refine ⟨a :: p :: t, hl.insert hp, ha, fun c => ?_⟩
      rw [← hmem c]
      simp only [List.mem_cons, true_and]
      tauto
    · refine ⟨l, hl.congr fun b hbl => ?_, hhead, fun c => ?_⟩
      · have hba : b ≠ a := fun he => by
          obtain ⟨l', -, hhead', hmem'⟩ := h (s.cls p).pri_
          rw [ha] at hhead'
          have ha' := (hmem' a).mp (List.mem_of_mem_head? hhead'.symm)
          exact hq (hdisj _ _ a ((hmem a).mp (he ▸ hbl)) ha')
        have hbp : b ≠ p := fun he => hp (he ▸ hbl)
        rw [Function.update_of_ne hba, Function.update_of_ne hbp]
      · rw [hmem c, or_iff_left fun hno => hq hno.1]

/-- A new class in the list of its level. -/
theorem Levels.insert (h : s.Levels P) (hnew : ∀ v, ¬ P v p) :
    (s.insertLevel p).Levels fun v c => P v c ∨ v = (s.cls p).level_ ∧ c = p := by
  intro v
  obtain ⟨l, hnd, hl, hmem⟩ := h v
  have hp : p ∉ l := fun hpl => hnew v ((hmem p).mp hpl)
  rw [insertLevel]
  dsimp only
  rw [setLevelPeer_level_peer]
  by_cases hv : v = (s.cls p).level_
  · rw [← hv]
    refine ⟨p :: l, List.nodup_cons.mpr ⟨hp, hnd⟩, ?_, fun c => ?_⟩
    · rw [Function.update_self]
      exact hl.push hp
    · rw [← hmem c]
      simp only [List.mem_cons, true_and]
      tauto
  · refine ⟨l, hnd, ?_, fun c => ?_⟩
    · rw [Function.update_of_ne hv]
      refine hl.congr fun b hbl => ?_
      have hbp : b ≠ p := fun he => hp (he ▸ hbl)
      exact Function.update_of_ne hbp _ _
    · rw [hmem c, or_iff_left fun hno => hv hno.1]

theorem setM_spec (h : s.setM = some t) : ∃ M, t = { s with M_ := M } := by
  rw [setM] at h
  dsimp only at h
  split_ifs at h
  exact ⟨_, (Option.some.inj h).symm⟩

theorem addallot_spec {d : ℚ} (h : s.addallot v d = some t) : s.wrr = false ∧ t = s ∨
    s.wrr = true ∧ ∃ M, t = { s with
      alloc_ := Function.update s.alloc_ v (s.alloc_ v + d), M_ := M } := by
  rw [addallot] at h
  split_ifs at h with hw
  · exact .inr ⟨hw, setM_spec h⟩
  · exact .inl ⟨Bool.not_eq_true _ ▸ hw, (Option.some.inj h).symm⟩

end CBQueue

namespace CbqInsert

/-- The allotment and the link that the second check admits. -/
def Allots (i : CbqInsert) : Prop :=
  0 ≤ i.allotment_ ∧ i.allotment_ ≤ 1 ∧ ∃ b ∈ i.link_, 0 < b

instance (i : CbqInsert) : Decidable i.Allots :=
  inferInstanceAs (Decidable (_ ∧ _ ∧ ∃ b ∈ i.link_, 0 < b))

/-- Every check admits the class. -/
def Valid (i : CbqInsert) : Prop :=
  (0 ≤ i.pri_ ∧ i.pri_ ≤ 9) ∧ i.Allots ∧ 0 < i.level_ ∧ i.level_ ≤ 32

instance (i : CbqInsert) : Decidable i.Valid :=
  inferInstanceAs (Decidable (_ ∧ _ ∧ _ ∧ _))

end CbqInsert

namespace CBQueue

variable {P Q : ℤ → ℕ → Prop} {s t u : CBQueue} {p : ℕ} {v : ℤ} {i : CbqInsert} {b : Bool}

/-- The state of everything that insertions change but the weights. -/
structure Same (s t : CBQueue) : Prop where
  peer : ∀ c, (t.cls c).peer_ = (s.cls c).peer_
  level_peer : ∀ c, (t.cls c).level_peer_ = (s.cls c).level_peer_
  active : t.active_ = s.active_
  levels : t.levels_ = s.levels_
  alloc : t.alloc_ = s.alloc_
  cnt : t.cnt_ = s.cnt_

theorem Same.trans (h : Same s t) (h' : Same t u) : Same s u :=
  ⟨fun c => (h'.peer c).trans (h.peer c), fun c => (h'.level_peer c).trans (h.level_peer c),
    h'.active.trans h.active, h'.levels.trans h.levels, h'.alloc.trans h.alloc, h'.cnt.trans h.cnt⟩

theorem same_setClass {c : ℕ} {x : CBQClass} (hp : x.peer_ = (s.cls c).peer_)
    (hl : x.level_peer_ = (s.cls c).level_peer_) : Same s (s.setClass c x) :=
  ⟨congrFun (setClass_same CBQClass.peer_ s hp), congrFun (setClass_same CBQClass.level_peer_ s hl),
    rfl, rfl, rfl, rfl⟩

theorem same_configure (s : CBQueue) (i : CbqInsert) : Same s (s.configure i) :=
  have h : Same s (s.setClass i.cl { s.cls i.cl with
      pri_ := i.pri_, level_ := i.level_, allotment_ := i.allotment_, q_ := i.q_ }) :=
    same_setClass rfl rfl
  ⟨h.peer, h.level_peer, rfl, rfl, rfl, rfl⟩

theorem configure_cls (s : CBQueue) (i : CbqInsert) : (s.configure i).cls i.cl = { s.cls i.cl with
    pri_ := i.pri_, level_ := i.level_, allotment_ := i.allotment_, q_ := i.q_ } :=
  Function.update_self _ _ _

/-- The ring is joined before the other checks. -/
def joined (s : CBQueue) (i : CbqInsert) : CBQueue :=
  if i.q_ = none then s.configure i else (s.configure i).insertPeer i.cl

theorem setPeer_cls (s : CBQueue) (c : ℕ) (x : Option ℕ) (d : ℕ) :
    ∃ y, (s.setPeer c x).cls d = { s.cls d with peer_ := y } := by
  change ∃ y, Function.update s.cls c { s.cls c with peer_ := x } d = _
  by_cases h : d = c
  · exact ⟨x, by rw [h, Function.update_self]⟩
  · exact ⟨(s.cls d).peer_, by rw [Function.update_of_ne h]⟩

theorem insertPeer_cls (s : CBQueue) (p d : ℕ) :
    ∃ y, (s.insertPeer p).cls d = { s.cls d with peer_ := y } := by
  rw [insertPeer]
  dsimp only
  cases s.active_ (s.cls p).pri_ with
  | none => exact setPeer_cls s p _ d
  | some a =>
    obtain ⟨y, hy⟩ := setPeer_cls s p (s.cls a).peer_ d
    obtain ⟨z, hz⟩ := setPeer_cls (s.setPeer p (s.cls a).peer_) a (some p) d
    exact ⟨z, by rw [hz, hy]⟩

theorem joined_cls (s : CBQueue) (i : CbqInsert) : ∃ y, (s.joined i).cls i.cl = { s.cls i.cl with
    pri_ := i.pri_, level_ := i.level_, allotment_ := i.allotment_, q_ := i.q_, peer_ := y } := by
  rw [joined]
  split_ifs
  · exact ⟨(s.cls i.cl).peer_, s.configure_cls i⟩
  · obtain ⟨y, hy⟩ := (s.configure i).insertPeer_cls i.cl i.cl
    exact ⟨y, by rw [hy, configure_cls]⟩

theorem insertPeer_rest (s : CBQueue) (p : ℕ) : (s.insertPeer p).alloc_ = s.alloc_ ∧
    (s.insertPeer p).cnt_ = s.cnt_ ∧ (s.insertPeer p).wrr = s.wrr ∧
      (s.insertPeer p).link_ = s.link_ := by
  rw [insertPeer]
  dsimp only
  cases s.active_ (s.cls p).pri_ <;> exact ⟨rfl, rfl, rfl, rfl⟩

theorem joined_rest (s : CBQueue) (i : CbqInsert) : (s.joined i).alloc_ = s.alloc_ ∧
    (s.joined i).cnt_ = s.cnt_ ∧ (s.joined i).wrr = s.wrr ∧ (s.joined i).link_ = i.link_ := by
  rw [joined]
  split_ifs
  · exact ⟨rfl, rfl, rfl, rfl⟩
  · exact insertPeer_rest _ _

theorem insertClass_pri (s : CBQueue) (h : i.pri_ < 0 ∨ i.pri_ > 9) :
    (s.configure i).insertClass i.cl = some (s.configure i, false) := by
  rw [insertClass]
  dsimp only
  rw [configure_cls]
  exact if_pos h

theorem insertClass_allot (s : CBQueue) (hpri : ¬ (i.pri_ < 0 ∨ i.pri_ > 9)) (h : ¬ i.Allots) :
    (s.configure i).insertClass i.cl = some (s.joined i, false) := by
  have hlink := (s.joined_rest i).2.2.2
  rw [insertClass]
  dsimp only
  rw [configure_cls]
  refine (if_neg hpri).trans ?_
  change (ite (i.allotment_ < 0 ∨ i.allotment_ > 1) (some (s.joined i, false)) _) = _
  by_cases hallot : i.allotment_ < 0 ∨ i.allotment_ > 1
  · exact if_pos hallot
  · refine (if_neg hallot).trans ?_
    have hnone : ¬ ∃ b ∈ i.link_, 0 < b := fun hb => by
      obtain ⟨h0, h1⟩ := not_or.mp hallot
      exact h ⟨not_lt.mp h0, not_lt.mp h1, hb⟩
    split
    · rfl
    · next b hb =>
      refine if_pos (not_lt.mp fun hpos => hnone ⟨b, ?_, hpos⟩)
      rw [← hlink]
      exact hb

/-- What the checks of the allotment and the link leave to do. -/
theorem insertClass_allots (s : CBQueue) (hpri : ¬ (i.pri_ < 0 ∨ i.pri_ > 9)) (h : i.Allots) :
    ∃ r, (s.configure i).insertClass i.cl =
      (((s.joined i).setClass i.cl { (s.joined i).cls i.cl with maxrate_ := r }).addallot
        i.pri_ i.allotment_).map fun u =>
          if i.level_ ≤ 0 ∨ i.level_ > 32 then (u, false) else (u.insertLevel i.cl, true) := by
  obtain ⟨h0, h1, b, hb, hpos⟩ := h
  have hlink := (s.joined_rest i).2.2.2
  rw [insertClass]
  dsimp only
  rw [configure_cls]
  refine ⟨i.allotment_ * (b / 8), (if_neg hpri).trans ?_⟩
  refine (if_neg (not_or.mpr ⟨not_lt.mpr h0, not_lt.mpr h1⟩)).trans ?_
  change (s.joined i).link_ = _ at hlink
  split
  · next hnone =>
    change (s.joined i).link_ = none at hnone
    rw [hlink] at hnone
    rw [hnone] at hb
    cases hb
  · next b' hb' =>
    change (s.joined i).link_ = some b' at hb'
    rw [hlink] at hb'
    obtain rfl : b' = b := Option.some.inj (hb'.symm.trans hb)
    exact if_neg (not_le.mpr hpos)

/-- The accepted classes with a queue and a priority. -/
def LeafOf (acc : List CbqInsert) (p : ℤ) (c : ℕ) : Prop :=
  ∃ i ∈ acc, i.cl = c ∧ i.q_ ≠ none ∧ i.pri_ = p

/-- The accepted classes of a level. -/
def AtLevel (acc : List CbqInsert) (v : ℤ) (c : ℕ) : Prop := ∃ i ∈ acc, i.cl = c ∧ i.level_ = v

/-- What the queue knows when some classes have been accepted. -/
structure Holds (acc : List CbqInsert) (s : CBQueue) : Prop where
  nodup : (acc.map (·.cl)).Nodup
  rings : s.Rings (LeafOf acc)
  levels : s.Levels (AtLevel acc)
  alloc : s.wrr = true → ∀ p, s.alloc_ p = ((acc.filter (·.pri_ = p)).map (·.allotment_)).sum
  cnt : s.wrr = true → ∀ p, s.cnt_ p = (acc.filter (·.pri_ = p)).length

variable {acc : List CbqInsert}

theorem holds_new (wrr : Bool) (maxpkt : ℤ) : (new wrr maxpkt).Holds [] := by
  have hnone : ∀ c : ℕ, ∀ Q : CbqInsert → Prop, c ∈ ([] : List ℕ) ↔ ∃ i ∈ ([] : List CbqInsert), Q i :=
    fun c Q => by simp
  exact ⟨List.nodup_nil, fun p => ⟨[], .nil, rfl, fun c => hnone c _⟩,
    fun v => ⟨[], List.nodup_nil, rfl, fun c => hnone c _⟩, fun _ _ => rfl, fun _ _ => rfl⟩

theorem Holds.same (h : s.Holds acc) (hs : Same s t) (hw : t.wrr = s.wrr) : t.Holds acc :=
  ⟨h.nodup, h.rings.congr hs.peer hs.active, h.levels.congr hs.level_peer hs.levels,
    fun ht p => by rw [hs.alloc]; exact h.alloc (hw ▸ ht) p,
    fun ht p => by rw [hs.cnt]; exact h.cnt (hw ▸ ht) p⟩

theorem Rings.imp (h : s.Rings P) (hPQ : ∀ p c, P p c ↔ Q p c) : s.Rings Q := fun p => by
  obtain ⟨l, hl, hhead, hmem⟩ := h p
  exact ⟨l, hl, hhead, fun c => (hmem c).trans (hPQ p c)⟩

theorem Levels.imp (h : s.Levels P) (hPQ : ∀ p c, P p c ↔ Q p c) : s.Levels Q := fun p => by
  obtain ⟨l, hnd, hl, hmem⟩ := h p
  exact ⟨l, hnd, hl, fun c => (hmem c).trans (hPQ p c)⟩

theorem leafOf_concat {c : ℕ} : LeafOf (acc ++ [i]) v c ↔
    LeafOf acc v c ∨ i.cl = c ∧ i.q_ ≠ none ∧ i.pri_ = v := by
  simp only [LeafOf, List.mem_append, List.mem_singleton, or_and_right, exists_or, exists_eq_left]

theorem atLevel_concat {c : ℕ} : AtLevel (acc ++ [i]) v c ↔
    AtLevel acc v c ∨ i.cl = c ∧ i.level_ = v := by
  simp only [AtLevel, List.mem_append, List.mem_singleton, or_and_right, exists_or, exists_eq_left]

/-- A class has joined the ring of its priority. -/
theorem Holds.joined (h : s.Holds acc) (hnew : i.cl ∉ acc.map (·.cl)) :
    (s.joined i).Rings (LeafOf (acc ++ [i])) ∧ (s.joined i).Levels (AtLevel acc) := by
  have hconf := s.same_configure i
  have hr := h.rings.congr hconf.peer hconf.active
  have hl := h.levels.congr hconf.level_peer hconf.levels
  rw [CBQueue.joined]
  split_ifs with hq
  · refine ⟨hr.imp fun p c => ?_, hl⟩
    rw [leafOf_concat]
    exact (or_iff_left fun hno => hno.2.1 hq).symm
  · obtain ⟨hpeer, hlevels⟩ := insertPeer_levels (s.configure i) i.cl
    have hdisj : ∀ q q' c, LeafOf acc q c → LeafOf acc q' c → q = q' := by
      rintro q q' c ⟨j, hj, rfl, -, rfl⟩ ⟨k, hk, hkc, -, rfl⟩
      rw [List.inj_on_of_nodup_map h.nodup hk hj hkc]
    have hout : ∀ q, ¬ LeafOf acc q i.cl := by
      rintro q ⟨j, hj, hjc, -⟩
      exact hnew (List.mem_map.mpr ⟨j, hj, hjc⟩)
    refine ⟨(hr.insert hdisj hout).imp fun p c => ?_, hl.congr hpeer hlevels⟩
    rw [leafOf_concat, configure_cls]
    dsimp only
    tauto

theorem sum_concat (p : ℤ) : (((acc ++ [i]).filter (·.pri_ = p)).map (·.allotment_)).sum =
    Function.update (fun p => ((acc.filter (·.pri_ = p)).map (·.allotment_)).sum) i.pri_
      (((acc.filter (·.pri_ = i.pri_)).map (·.allotment_)).sum + i.allotment_) p := by
  rw [List.filter_append, List.map_append, List.sum_append]
  by_cases hp : p = i.pri_
  · rw [hp, Function.update_self]
    simp
  · rw [Function.update_of_ne hp]
    simp [Ne.symm hp]

theorem length_concat (p : ℤ) : (((acc ++ [i]).filter (·.pri_ = p)).length : ℤ) =
    Function.update (fun p => ((acc.filter (·.pri_ = p)).length : ℤ)) i.pri_
      ((acc.filter (·.pri_ = i.pri_)).length + 1) p := by
  rw [List.filter_append, List.length_append]
  by_cases hp : p = i.pri_
  · rw [hp, Function.update_self]
    simp
  · rw [Function.update_of_ne hp]
    simp [Ne.symm hp]

/-- An insertion that every check admits. -/
theorem Holds.accept (h : s.Holds acc) (hv : i.Valid) (hnew : i.cl ∉ acc.map (·.cl))
    (hrun : (s.configure i).insert_class i.cl = some (t, b)) :
    b = true ∧ t.Holds (acc ++ [i]) ∧ t.wrr = s.wrr := by
  obtain ⟨hpri, hallots, hlevel⟩ := hv
  obtain ⟨r, hclass⟩ := s.insertClass_allots (by omega) hallots
  obtain ⟨hrings, hlevels⟩ := h.joined hnew
  obtain ⟨halloc, hcnt, hwrr, -⟩ := s.joined_rest i
  obtain ⟨y, hcls⟩ := s.joined_cls i
  have hsame : Same (s.joined i)
      ((s.joined i).setClass i.cl { (s.joined i).cls i.cl with maxrate_ := r }) :=
    same_setClass rfl rfl
  have hcls' : ((s.joined i).setClass i.cl { (s.joined i).cls i.cl with maxrate_ := r }).cls i.cl =
      { (s.joined i).cls i.cl with maxrate_ := r } := Function.update_self _ _ _
  have hwrr' : ((s.joined i).setClass i.cl { (s.joined i).cls i.cl with maxrate_ := r }).wrr = s.wrr :=
    hwrr
  generalize (s.joined i).setClass i.cl { (s.joined i).cls i.cl with maxrate_ := r } = x at *
  have hnodup : ((acc ++ [i]).map (·.cl)).Nodup := by
    rw [List.map_append, List.nodup_append_comm]
    exact List.nodup_cons.mpr ⟨hnew, h.nodup⟩
  have hxl : x.Levels (AtLevel acc) := hlevels.congr hsame.level_peer hsame.levels
  have hxr : x.Rings (LeafOf (acc ++ [i])) := hrings.congr hsame.peer hsame.active
  have hout : ∀ v, ¬ AtLevel acc v i.cl := by
    rintro v ⟨j, hj, hjc, -⟩
    exact hnew (List.mem_map.mpr ⟨j, hj, hjc⟩)
  have hlast : ∀ u : CBQueue, u.cls = x.cls → u.active_ = x.active_ → u.levels_ = x.levels_ →
      (u.insertLevel i.cl).Rings (LeafOf (acc ++ [i])) ∧
        (u.insertLevel i.cl).Levels (AtLevel (acc ++ [i])) := fun u hu ha hl => by
    obtain ⟨hpeer, hactive⟩ := u.insertLevel_peers i.cl
    refine ⟨hxr.congr (fun c => ?_) (hactive.trans ha), ?_⟩
    · rw [hpeer, hu]
    · refine ((hxl.congr (t := u) (fun c => by rw [hu]) hl).insert hout).imp fun v c => ?_
      rw [atLevel_concat, hu, hcls', hcls]
      dsimp only
      tauto
  rw [insert_class, hclass] at hrun
  cases ha : x.addallot i.pri_ i.allotment_ with
  | none =>
    rw [ha] at hrun
    cases hrun
  | some u =>
    rw [ha, Option.map_some, if_neg (by omega), Option.bind_some] at hrun
    dsimp only at hrun
    rcases addallot_spec ha with ⟨hw, rfl⟩ | ⟨hw, M, rfl⟩
    · have hsw : ¬ ((s.configure i).wrr = true ∧ true = true) := by
        rw [← Bool.not_eq_true, hwrr'] at hw
        exact fun hno => hw hno.1
      rw [if_neg hsw] at hrun
      obtain ⟨rfl, rfl⟩ := Prod.mk.inj (Option.some.inj hrun)
      obtain ⟨hr, hl⟩ := hlast u rfl rfl rfl
      have hnw : (u.insertLevel i.cl).wrr ≠ true := by
        change u.wrr ≠ true
        rw [hw]
        exact Bool.false_ne_true
      exact ⟨rfl, ⟨hnodup, hr, hl, fun hno => absurd hno hnw, fun hno => absurd hno hnw⟩, hwrr'⟩
    · have hsw : (s.configure i).wrr = true ∧ true = true := ⟨hwrr'.symm.trans hw, rfl⟩
      rw [if_pos hsw] at hrun
      obtain ⟨t', ht', he⟩ := Option.map_eq_some_iff.mp hrun
      obtain ⟨rfl, rfl⟩ := Prod.mk.inj he
      obtain ⟨M', rfl⟩ := setM_spec ht'
      obtain ⟨hr, hl⟩ := hlast _ rfl rfl rfl
      have hws : s.wrr = true := hwrr'.symm.trans hw
      refine ⟨rfl, ⟨hnodup, hr, hl, fun _ p => ?_, fun _ p => ?_⟩, hwrr'⟩
      · change Function.update x.alloc_ i.pri_ (x.alloc_ i.pri_ + i.allotment_) p = _
        rw [hsame.alloc, halloc, funext (h.alloc hws), sum_concat]
      · change Function.update x.cnt_ ((CBQueue.insertLevel _ i.cl).cls i.cl).pri_
          (x.cnt_ ((CBQueue.insertLevel _ i.cl).cls i.cl).pri_ + 1) p = _
        rw [insertLevel_pri]
        dsimp only
        rw [hcls', hcls, hsame.cnt, hcnt, funext (h.cnt hws), length_concat]

/-- An insertion that is rejected before the class has joined anything. -/
theorem reject_same (hpri : i.pri_ < 0 ∨ i.pri_ > 9 ∨ i.q_ = none ∧
      (¬ i.Allots ∨ (i.level_ ≤ 0 ∨ i.level_ > 32) ∧ (s.wrr = false ∨ i.allotment_ = 0)))
    (hrun : (s.configure i).insert_class i.cl = some (t, b)) :
    b = false ∧ Same s t ∧ t.wrr = s.wrr := by
  have hconf := s.same_configure i
  rw [insert_class] at hrun
  by_cases hp : i.pri_ < 0 ∨ i.pri_ > 9
  · rw [insertClass_pri s hp, Option.bind_some, if_neg fun hno => Bool.false_ne_true hno.2] at hrun
    obtain ⟨rfl, rfl⟩ := Prod.mk.inj (Option.some.inj hrun)
    exact ⟨rfl, hconf, rfl⟩
  · obtain ⟨hq, hrest⟩ : i.q_ = none ∧ (¬ i.Allots ∨
        (i.level_ ≤ 0 ∨ i.level_ > 32) ∧ (s.wrr = false ∨ i.allotment_ = 0)) := by tauto
    have hj : s.joined i = s.configure i := if_pos hq
    by_cases ha : i.Allots
    · obtain ⟨hlevel, hsum⟩ := hrest.resolve_left (not_not.mpr ha)
      obtain ⟨r, hclass⟩ := s.insertClass_allots hp ha
      rw [hj] at hclass
      have hsame : Same (s.configure i) ((s.configure i).setClass i.cl
          { (s.configure i).cls i.cl with maxrate_ := r }) := same_setClass rfl rfl
      have hw : ((s.configure i).setClass i.cl
          { (s.configure i).cls i.cl with maxrate_ := r }).wrr = s.wrr := rfl
      generalize (s.configure i).setClass i.cl
        { (s.configure i).cls i.cl with maxrate_ := r } = x at *
      cases hadd : x.addallot i.pri_ i.allotment_ with
      | none =>
        rw [hclass, hadd] at hrun
        cases hrun
      | some u =>
        rw [hclass, hadd, Option.map_some, if_pos hlevel, Option.bind_some,
          if_neg fun hno => Bool.false_ne_true hno.2] at hrun
        obtain ⟨rfl, rfl⟩ := Prod.mk.inj (Option.some.inj hrun)
        rcases addallot_spec hadd with ⟨-, rfl⟩ | ⟨hx, M, rfl⟩
        · exact ⟨rfl, hconf.trans hsame, hw⟩
        · have hzero : i.allotment_ = 0 := hsum.resolve_left fun hno => by
            rw [hw, hno] at hx
            cases hx
          refine ⟨rfl, hconf.trans (hsame.trans ⟨fun _ => rfl, fun _ => rfl, rfl, rfl, ?_, rfl⟩), hw⟩
          dsimp only
          rw [hzero, add_zero, Function.update_eq_self]
    · rw [insertClass_allot s hp ha, Option.bind_some,
        if_neg fun hno => Bool.false_ne_true hno.2] at hrun
      obtain ⟨rfl, rfl⟩ := Prod.mk.inj (Option.some.inj hrun)
      rw [hj]
      exact ⟨rfl, hconf, rfl⟩

end CBQueue

/-- A queue, and the classes that it has accepted. -/
structure CbqSetup where
  queue : CBQueue
  accepted : List CbqInsert

namespace CbqSetup

open CBQueue

variable {s t : CbqSetup} {i : CbqInsert} {b : Bool}

def new (wrr : Bool) (maxpkt : ℤ) : CbqSetup := ⟨.new wrr maxpkt, []⟩

def step (s : CbqSetup) (i : CbqInsert) : Option (CbqSetup × Bool) :=
  ((s.queue.configure i).insert_class i.cl).map fun r =>
    (⟨r.1, if r.2 then s.accepted ++ [i] else s.accepted⟩, r.2)

/-- A valid class that is new, or one that a check rejects before it has joined its ring or added its
allotment. -/
def Clean (s : CbqSetup) (i : CbqInsert) : Prop :=
  i.Valid ∧ i.cl ∉ s.accepted.map (·.cl) ∨ (i.pri_ < 0 ∨ i.pri_ > 9) ∨ i.q_ = none ∧
    (¬ i.Allots ∨ (i.level_ ≤ 0 ∨ i.level_ > 32) ∧ (s.queue.wrr = false ∨ i.allotment_ = 0))

instance (s : CbqSetup) (i : CbqInsert) : Decidable (s.Clean i) :=
  inferInstanceAs (Decidable (_ ∨ _ ∨ _ ∧ _))

/-- A clean insertion keeps everything in order, and changes nothing if it is rejected. -/
theorem step_clean (h : s.queue.Holds s.accepted) (hi : s.Clean i) (hs : s.step i = some (t, b)) :
    t.queue.Holds t.accepted ∧ (b = false → Same s.queue t.queue ∧ t.accepted = s.accepted) := by
  obtain ⟨⟨q, b'⟩, hq, he⟩ := Option.map_eq_some_iff.mp hs
  obtain ⟨rfl, rfl⟩ := Prod.mk.inj he
  rcases hi with ⟨hv, hnew⟩ | hreject
  · obtain ⟨rfl, hok, -⟩ := h.accept hv hnew hq
    exact ⟨hok, fun hno => by cases hno⟩
  · obtain ⟨rfl, hsame, hw⟩ := reject_same (by rw [or_assoc] at hreject; exact hreject) hq
    exact ⟨h.same hsame hw, fun _ => ⟨hsame, rfl⟩⟩

/-- Runs of clean insertions. -/
theorem run_clean (wrr : Bool) (maxpkt : ℤ) (is : List CbqInsert) {os : List Bool}
    (hclean : Machine.Admits step Clean (new wrr maxpkt) is)
    (hrun : Machine.run step (new wrr maxpkt) is = some (t, os)) :
    (t.accepted.map (·.cl)).Nodup ∧ t.queue.Rings (LeafOf t.accepted) ∧
      t.queue.Levels (AtLevel t.accepted) ∧
      (t.queue.wrr = true → ∀ p,
        t.queue.alloc_ p = ((t.accepted.filter (·.pri_ = p)).map (·.allotment_)).sum ∧
        t.queue.cnt_ p = (t.accepted.filter (·.pri_ = p)).length) ∧
      ∀ i u, t.Clean i → t.step i = some (u, false) →
        Same t.queue u.queue ∧ u.accepted = t.accepted := by
  have hok : t.queue.Holds t.accepted := Machine.run_invariant
    (I := fun s : CbqSetup => s.queue.Holds s.accepted)
    (fun s i t o hI hi hs => (step_clean hI hi hs).1) (holds_new wrr maxpkt) hclean hrun
  exact ⟨hok.nodup, hok.rings, hok.levels, fun hw p => ⟨hok.alloc hw p, hok.cnt hw p⟩,
    fun i u hi hs => (step_clean hok hi hs).2 rfl⟩

theorem run_clean_three : ∃ t : CbqSetup, t.accepted.map (·.cl) = [1, 3] ∧
    t.queue.Rings (LeafOf t.accepted) ∧ t.queue.Levels (AtLevel t.accepted) ∧
      t.queue.alloc_ 0 = 1 / 2 ∧ t.queue.cnt_ 0 = 1 := by
  have hclean : Machine.Admits step Clean (new true 1000)
      [⟨1, 0, 1, 1 / 2, some [], some 8000⟩, ⟨2, 12, 1, 1 / 2, some [], some 8000⟩,
        ⟨3, 1, 2, 1, none, some 8000⟩] := by decide +kernel
  have hfacts : (Machine.run step (new true 1000)
      [⟨1, 0, 1, 1 / 2, some [], some 8000⟩, ⟨2, 12, 1, 1 / 2, some [], some 8000⟩,
        ⟨3, 1, 2, 1, none, some 8000⟩]).map (fun r =>
          (r.1.accepted.map (·.cl), r.1.queue.alloc_ 0, r.1.queue.cnt_ 0)) =
      some ([1, 3], 1 / 2, 1) := by decide +kernel
  obtain ⟨⟨t, os⟩, hrun, he⟩ := Option.map_eq_some_iff.mp hfacts
  simp only [Prod.mk.injEq] at he
  obtain ⟨-, hrings, hlevels, -⟩ := run_clean true 1000 _ hclean hrun
  exact ⟨t, he.1, hrings, hlevels, he.2.1, he.2.2⟩

/-- A class with a queue whose allotment is more than the link is rejected, but stays in its ring. -/
theorem rings_of_reject : ¬ ∀ (wrr : Bool) (maxpkt : ℤ) (is : List CbqInsert) (t : CbqSetup)
    (os : List Bool), Machine.run step (new wrr maxpkt) is = some (t, os) →
      t.queue.Rings (LeafOf t.accepted) ∧ t.queue.Levels (AtLevel t.accepted) ∧
      (t.queue.wrr = true → ∀ p,
        t.queue.alloc_ p = ((t.accepted.filter (·.pri_ = p)).map (·.allotment_)).sum ∧
        t.queue.cnt_ p = (t.accepted.filter (·.pri_ = p)).length) := by
  intro hall
  have hfacts : (Machine.run step (new false 1000)
      [⟨1, 0, 1, 3 / 2, some [], some 8000⟩]).map (fun r => (r.1.accepted, r.1.queue.active_ 0)) =
      some ([], some 1) := by decide +kernel
  obtain ⟨⟨t, os⟩, hrun, he⟩ := Option.map_eq_some_iff.mp hfacts
  simp only [Prod.mk.injEq] at he
  obtain ⟨hrings, -⟩ := hall false 1000 _ t os hrun
  obtain ⟨l, -, hhead, hmem⟩ := hrings 0
  rw [he.2] at hhead
  obtain ⟨i, hi, -⟩ := (hmem 1).mp (List.mem_of_mem_head? hhead.symm)
  rw [he.1] at hi
  cases hi

end CbqSetup

end Ns2
