import Ns2.Dccp.FeatureNegotiation

/-! When the arrays of ongoing feature negotiations stay aligned. -/

namespace Ns2

structure Negotiation where
  num : BitVec 8
  location : FeatureLocation
  seq_num : ℕ
  first : Bool
  deriving DecidableEq

namespace Negotiation

open FeatureLists

def Is (num : BitVec 8) (location : FeatureLocation) (x : Negotiation) : Bool :=
  x.num == num && x.location == location

/-- The negotiation has not begun or its last option should have been answered by now. -/
def Due (c : PacketContext) (x : Negotiation) : Prop :=
  (c.packet_recv_ = false ∨ x.first = true ∨ x.seq_num ≤ c.ack_num_recv_) ∧
    0 < c.getFeature x.num x.location

instance (c : PacketContext) (x : Negotiation) : Decidable (x.Due c) :=
  inferInstanceAs (Decidable (_ ∧ _))

/-- The negotiation after its option, if it is due, has been put on a packet. -/
def sent (c : PacketContext) (x : Negotiation) : Negotiation :=
  if x.Due c then { x with seq_num := c.seq_num_, first := false } else x

def option (c : PacketContext) (x : Negotiation) : Option SentOption :=
  if x.Due c then some (changeType x.location, x.num) else none

/-- What each call is to make of the negotiations. -/
def advance (size : ℕ) (ns : List Negotiation) : FeatureCall → List Negotiation
  | .changeFeature mult seq num location =>
    match ns.findIdx? (Is num location) with
    | some pos =>
      if mult > 0 then ns.modify pos fun x => { x with seq_num := seq, first := true } else ns
    | none => if ns.length = size then ns else ns ++ [⟨num, location, 0, true⟩]
  | .confirmFeature _ _ => ns
  | .addFeatureOptions c => ns.map (sent c)
  | .finishFeatureNegotiation num location =>
    match ns.findIdx? (Is num location) with
    | some pos => ns.eraseIdx pos
    | none => ns

end Negotiation

namespace FeatureLists

open Negotiation

variable {a : FeatureLists} {num : BitVec 8} {location : FeatureLocation}

def slot (a : FeatureLists) (i : ℕ) : Negotiation :=
  ⟨a.feat_list_num_ i, a.feat_list_loc_ i, a.feat_list_seq_num_ i, a.feat_list_first_ i⟩

/-- What the slots in use say. -/
def negotiations (a : FeatureLists) : List Negotiation := (List.range a.feat_list_used_).map a.slot

@[simp] theorem length_negotiations (a : FeatureLists) :
    a.negotiations.length = a.feat_list_used_ := by simp [negotiations]

theorem getElem?_negotiations (a : FeatureLists) (i : ℕ) :
    a.negotiations[i]? = if i < a.feat_list_used_ then some (a.slot i) else none := by
  by_cases h : i < a.feat_list_used_ <;> simp [negotiations, h]

theorem findIdx?_range (n : ℕ) (p : ℕ → Bool) :
    (List.range n).findIdx? p = (List.range n).find? p := by
  induction n with
  | zero => rfl
  | succ n ih =>
    rw [List.range_succ, List.findIdx?_append, List.find?_append, ih]
    simp [List.findIdx?_cons, List.find?_cons]
    cases p n <;> simp

theorem find_eq (a : FeatureLists) (num : BitVec 8) (location : FeatureLocation) :
    a.findFeatureInList num location = a.negotiations.findIdx? (Is num location) := by
  rw [negotiations, List.findIdx?_map, findIdx?_range]
  rfl

theorem find_lt {pos : ℕ} (h : a.findFeatureInList num location = some pos) :
    pos < a.feat_list_used_ :=
  List.mem_range.mp (List.mem_of_find?_eq_some h)

theorem changing_eq (a : FeatureLists) (num : BitVec 8) (location : FeatureLocation) :
    a.featureIsChanging num location = (a.findFeatureInList num location).isSome := by
  rw [Bool.eq_iff_iff, findFeatureInList, List.find?_isSome]
  simp [featureIsChanging]

theorem negotiations_append (h : a.feat_list_used_ + 1 < 2 ^ 8) :
    (a.append num location).negotiations = a.negotiations ++ [⟨num, location, 0, true⟩] := by
  have hused : (a.append num location).feat_list_used_ = a.feat_list_used_ + 1 := Nat.mod_eq_of_lt h
  rw [negotiations, hused, List.range_succ, List.map_append, negotiations]
  congr 1
  · refine List.map_congr_left fun i hi => ?_
    have hne : i ≠ a.feat_list_used_ := (List.mem_range.mp hi).ne
    simp [slot, append, hne]
  · simp [slot, append]

theorem negotiations_set {pos : ℕ} (hpos : pos < a.feat_list_used_) (seq : ℕ) :
    negotiations { a with
      feat_list_seq_num_ := Function.update a.feat_list_seq_num_ pos seq
      feat_list_first_ := Function.update a.feat_list_first_ pos true } =
      a.negotiations.modify pos fun x => { x with seq_num := seq, first := true } := by
  apply List.ext_getElem?
  intro i
  rw [List.getElem?_modify, getElem?_negotiations, getElem?_negotiations]
  by_cases hi : i = pos
  · subst hi
    simp [hpos, slot]
  · simp [slot, hi, Ne.symm hi]

theorem addChange_eq (c : PacketContext) (r : FeatureLists × List SentOption) (i : ℕ) :
    addChange c r i = if (r.1.slot i).Due c then ({ r.1 with
      feat_list_seq_num_ := Function.update r.1.feat_list_seq_num_ i c.seq_num_
      feat_list_first_ := Function.update r.1.feat_list_first_ i false },
      r.2 ++ [(changeType (r.1.feat_list_loc_ i), r.1.feat_list_num_ i)]) else r := by
  by_cases h1 : c.packet_recv_ = false ∨ r.1.feat_list_first_ i = true ∨
      r.1.feat_list_seq_num_ i ≤ c.ack_num_recv_
  · by_cases h2 : 0 < c.getFeature (r.1.feat_list_num_ i) (r.1.feat_list_loc_ i) <;>
      simp [addChange, Due, slot, or_assoc, h1, h2]
  · simp [addChange, Due, slot, or_assoc, h1]

theorem slot_addChange (c : PacketContext) (r : FeatureLists × List SentOption) (i j : ℕ) :
    (addChange c r i).1.slot j = if j = i then (r.1.slot j).sent c else r.1.slot j := by
  rw [addChange_eq]
  by_cases hj : j = i
  · subst hj
    by_cases h : (r.1.slot j).Due c
    · rw [if_pos h, if_pos rfl, sent, if_pos h]
      simp [slot]
    · rw [if_neg h, if_pos rfl, sent, if_neg h]
  · rw [if_neg hj]
    by_cases h : (r.1.slot i).Due c
    · rw [if_pos h]
      simp [slot, hj]
    · rw [if_neg h]

theorem options_addChange (c : PacketContext) (r : FeatureLists × List SentOption) (i : ℕ) :
    (addChange c r i).2 = r.2 ++ ((r.1.slot i).option c).toList := by
  rw [addChange_eq]
  by_cases h : (r.1.slot i).Due c
  · rw [if_pos h, option, if_pos h]
    simp [slot]
  · rw [if_neg h, option, if_neg h]
    simp

theorem addChange_same (c : PacketContext) (r : FeatureLists × List SentOption) (i : ℕ) :
    (addChange c r i).1.feat_list_used_ = r.1.feat_list_used_ ∧
      (addChange c r i).1.feat_size_ = r.1.feat_size_ ∧
      (addChange c r i).1.feat_conf_ = r.1.feat_conf_ := by
  rw [addChange_eq]
  by_cases h : (r.1.slot i).Due c <;> simp [h]

theorem addLoop_spec (c : PacketContext) (a : FeatureLists) (n : ℕ) :
    let r := (List.range n).foldl (addChange c) (a, [])
    (∀ j, r.1.slot j = if j < n then (a.slot j).sent c else a.slot j) ∧
      r.2 = (List.range n).filterMap (fun i => (a.slot i).option c) ∧
      r.1.feat_list_used_ = a.feat_list_used_ ∧ r.1.feat_size_ = a.feat_size_ ∧
      r.1.feat_conf_ = a.feat_conf_ := by
  induction n with
  | zero => simp
  | succ n ih =>
    obtain ⟨hslot, hopt, hused, hsize, hconf⟩ := ih
    simp only [List.range_succ, List.foldl_append, List.foldl_cons, List.foldl_nil]
    obtain ⟨h1, h2, h3⟩ := addChange_same c ((List.range n).foldl (addChange c) (a, [])) n
    refine ⟨fun j => ?_, ?_, h1.trans hused, h2.trans hsize, h3.trans hconf⟩
    · rw [slot_addChange, hslot]
      by_cases hj : j = n
      · simp [hj]
      · by_cases hlt : j < n
        · simp [hj, hlt, Nat.lt_succ_of_lt hlt]
        · rw [if_neg hj, if_neg hlt, if_neg (by omega)]
    · rw [options_addChange, hopt, hslot, if_neg (lt_irrefl n), List.filterMap_append]
      cases ho : (a.slot n).option c <;> simp [ho]

theorem negotiations_add (c : PacketContext) (a : FeatureLists) :
    (a.addFeatureOptions c).1.negotiations = a.negotiations.map (sent c) := by
  obtain ⟨hslot, -, hused, -, -⟩ := addLoop_spec c a a.feat_list_used_
  simp only [negotiations, addFeatureOptions, hused, List.map_map]
  refine List.map_congr_left fun i hi => ?_
  have := hslot i
  rwa [if_pos (List.mem_range.mp hi)] at this

theorem options_add (c : PacketContext) (a : FeatureLists) :
    (a.addFeatureOptions c).2 = a.negotiations.filterMap (option c) ++ a.confirms c := by
  obtain ⟨-, hopt, -, -, hconf⟩ := addLoop_spec c a a.feat_list_used_
  rw [addFeatureOptions, hopt, negotiations, List.filterMap_map, confirms, hconf]
  rfl

theorem moveLoop_spec (k i : ℕ) (a : FeatureLists) (j : ℕ) :
    (a.moveLoop k i).slot j =
      if i ≤ j ∧ j < i + k then
        { a.slot j with num := a.feat_list_num_ (j + 1), location := a.feat_list_loc_ (j + 1) }
      else a.slot j := by
  induction k generalizing i a with
  | zero => simp [moveLoop, show ¬ (i ≤ j ∧ j < i) by omega]
  | succ k ih =>
    rw [moveLoop, ih]
    by_cases hj : j = i
    · simp [hj, slot]
    · have h1 : j + 1 ≠ i ∨ j < i := by omega
      by_cases hin : i + 1 ≤ j ∧ j < i + 1 + k
      · have hne : j + 1 ≠ i := by omega
        rw [if_pos hin, if_pos (by omega)]
        simp [slot, hj, hne]
      · rw [if_neg hin, if_neg (by omega)]
        simp [slot, hj]

theorem moveLoop_used (k i : ℕ) (a : FeatureLists) :
    (a.moveLoop k i).feat_list_used_ = a.feat_list_used_ ∧
      (a.moveLoop k i).feat_size_ = a.feat_size_ := by
  induction k generalizing i a with
  | zero => exact ⟨rfl, rfl⟩
  | succ k ih => exact ih (i + 1) _

/-- From the entry on, neighbours have the same sequence number and flag. -/
def Level (a : FeatureLists) (walker : ℕ) : Prop :=
  ∀ i, walker ≤ i → i + 1 < a.feat_list_used_ →
    a.feat_list_seq_num_ i = a.feat_list_seq_num_ (i + 1) ∧
      a.feat_list_first_ i = a.feat_list_first_ (i + 1)

theorem negotiations_finish {w : ℕ} (hw : a.findFeatureInList num location = some w) :
    (a.finishFeatureNegotiation num location).2.negotiations = a.negotiations.eraseIdx w ↔
      a.Level w := by
  have hlt := find_lt hw
  have hused : (a.finishFeatureNegotiation num location).2.feat_list_used_ =
      a.feat_list_used_ - 1 := by
    rw [finishFeatureNegotiation, hw]
    exact congrArg (· - 1) (moveLoop_used _ _ a).1
  have hslot : ∀ j < a.feat_list_used_ - 1,
      (a.finishFeatureNegotiation num location).2.slot j = if w ≤ j then
        { a.slot j with num := a.feat_list_num_ (j + 1), location := a.feat_list_loc_ (j + 1) }
        else a.slot j := fun j hj => by
    simp only [finishFeatureNegotiation, hw]
    refine (moveLoop_spec (a.feat_list_used_ - 1 - w) w a j).trans ?_
    by_cases hwj : w ≤ j
    · rw [if_pos ⟨hwj, by omega⟩, if_pos hwj]
    · rw [if_neg (fun h => hwj h.1), if_neg hwj]
  constructor
  · intro h i hwi hi
    have hget := congrArg (·[i]?) h
    simp only [getElem?_negotiations, hused, List.getElem?_eraseIdx] at hget
    rw [if_pos (by omega), if_neg (by omega), if_pos hi, hslot i (by omega), if_pos hwi] at hget
    have := Option.some.inj hget
    simp only [slot, Negotiation.mk.injEq] at this
    exact this.2.2
  · intro h
    apply List.ext_getElem?
    intro i
    rw [getElem?_negotiations, hused, List.getElem?_eraseIdx, getElem?_negotiations,
      getElem?_negotiations]
    by_cases hi : i < a.feat_list_used_ - 1
    · rw [if_pos hi, hslot i hi]
      by_cases hwi : w ≤ i
      · rw [if_pos hwi, if_neg (by omega), if_pos (by omega)]
        obtain ⟨hs, hf⟩ := h i hwi (by omega)
        simp [slot, hs, hf]
      · rw [if_neg hwi, if_pos (by omega), if_pos (by omega)]
    · rw [if_neg hi, if_neg (by omega), if_neg (by omega)]

/-- The arrays beside the negotiations themselves. -/
def step (s : FeatureLists × List Negotiation) (c : FeatureCall) :
    Option ((FeatureLists × List Negotiation) × FeatureReply) :=
  some (((s.1.call c).1, advance s.1.feat_size_ s.2 c), (s.1.call c).2)

/-- The slots in use say what the negotiations are, and a packet gets the options that are due. -/
structure Aligned (s : FeatureLists × List Negotiation) : Prop where
  slots : s.1.negotiations = s.2
  sends (c : PacketContext) :
    (s.1.addFeatureOptions c).2 = s.2.filterMap (option c) ++ s.1.confirms c

/-- What ends is followed only by negotiations with its own sequence number and flag, and there are
less than 256. -/
def Ok (s : FeatureLists × List Negotiation) : FeatureCall → Prop
  | .finishFeatureNegotiation num location =>
    ∀ w, s.1.findFeatureInList num location = some w → s.1.Level w
  | .changeFeature _ _ num location => s.1.findFeatureInList num location = none →
    s.1.feat_list_used_ ≠ s.1.feat_size_ → s.1.feat_list_used_ + 1 < 2 ^ 8
  | _ => True

theorem aligned_of_slots {s : FeatureLists × List Negotiation} (h : s.1.negotiations = s.2) :
    Aligned s := ⟨h, fun c => by rw [options_add, h]⟩

theorem changeFeature_eq (a : FeatureLists) (num : BitVec 8) (location : FeatureLocation)
    (mult : ℤ) (seq : ℕ) : (a.changeFeature num location mult seq).2 =
      match a.findFeatureInList num location with
      | some pos => if mult > 0 then { a with
          feat_list_seq_num_ := Function.update a.feat_list_seq_num_ pos seq
          feat_list_first_ := Function.update a.feat_list_first_ pos true } else a
      | none => if a.feat_list_used_ = a.feat_size_ then a else a.append num location := by
  rw [changeFeature, changing_eq]
  cases a.findFeatureInList num location with
  | none =>
    by_cases hm : mult > 0 <;> by_cases hu : a.feat_list_used_ = a.feat_size_ <;> simp [hm, hu]
  | some pos => by_cases hm : mult > 0 <;> simp [hm]

theorem slots_call {s : FeatureLists × List Negotiation} (h : s.1.negotiations = s.2)
    {c : FeatureCall} : (s.1.call c).1.negotiations = advance s.1.feat_size_ s.2 c ↔ Ok s c := by
  obtain ⟨a, ns⟩ := s
  obtain rfl : a.negotiations = ns := h
  cases c with
  | changeFeature mult seq num location =>
    simp only [call, changeFeature_eq, advance, Ok, ← find_eq, length_negotiations]
    cases hf : a.findFeatureInList num location with
    | some pos =>
      by_cases hm : mult > 0
      · simp [hm, negotiations_set (find_lt hf) seq]
      · simp [hm]
    | none =>
      by_cases hu : a.feat_list_used_ = a.feat_size_
      · simp [hu]
      · by_cases h8 : a.feat_list_used_ + 1 < 2 ^ 8
        · simp only [hu, if_false, negotiations_append h8]
          exact ⟨fun _ _ _ => h8, fun _ => trivial⟩
        · have hne : (a.append num location).negotiations ≠
              a.negotiations ++ [⟨num, location, 0, true⟩] := fun he => by
            have hlen := congrArg List.length he
            rw [length_negotiations, List.length_append, length_negotiations,
              List.length_singleton] at hlen
            rw [← hlen] at h8
            exact h8 (Nat.mod_lt _ (by decide))
          simp only [hu, if_false]
          exact ⟨fun he => absurd he hne, fun he => absurd (he trivial hu) h8⟩
  | confirmFeature num location =>
    refine ⟨fun _ => trivial, fun _ => ?_⟩
    simp only [call, advance, confirmFeature]
    split_ifs <;> rfl
  | addFeatureOptions c => exact ⟨fun _ => trivial, fun _ => negotiations_add c a⟩
  | finishFeatureNegotiation num location =>
    simp only [call, advance, Ok, ← find_eq]
    cases hf : a.findFeatureInList num location with
    | none => simp [finishFeatureNegotiation, hf]
    | some w => simpa using negotiations_finish hf

def new (size : ℕ) (a : FeatureLists) : FeatureLists :=
  { a with feat_size_ := size, feat_list_used_ := 0, feat_conf_ := [] }

/-- The arrays stay aligned in exactly the runs in which a negotiation ends only before others like
it, and there are never more than 255. -/
theorem always_aligned_iff (size : ℕ) (raw : FeatureLists) (calls : List FeatureCall) :
    Machine.Always step Aligned (new size raw, []) calls ↔
      Machine.Admits step Ok (new size raw, []) calls :=
  Machine.always_iff (fun _ h => aligned_of_slots h)
    (fun _ _ h hc => ⟨_, _, rfl, (slots_call h).mpr hc⟩)
    (fun _ _ _ _ h hc hs ha => by
      obtain ⟨rfl, -⟩ := Prod.mk.inj (Option.some.inj hs)
      exact hc ((slots_call h).mp ha.slots))
    rfl calls

/-- The second feature is left with the sequence number and the flag of the first. -/
theorem finish_first : ¬ Machine.Always step Aligned
    (new 24 ⟨0, fun _ => 0, fun _ => .local, fun _ => 0, fun _ => false, 0, []⟩, [])
    [.changeFeature 0 5 1 .local, .addFeatureOptions ⟨true, 3, 5, fun _ _ => 1⟩,
      .changeFeature 0 6 2 .local, .finishFeatureNegotiation 1 .local] := by
  intro h
  obtain ⟨t, os, hrun, ht⟩ := h.run
  have hends : some ([⟨2, .local, 5, false⟩], [⟨2, .local, 0, true⟩]) =
      some (t.1.negotiations, t.2) :=
    congrArg (Option.map fun r : (FeatureLists × List Negotiation) × List FeatureReply =>
      (r.1.1.negotiations, r.1.2)) hrun
  rw [ht.slots] at hends
  obtain ⟨h1, h2⟩ := Prod.mk.inj (Option.some.inj hends)
  exact absurd (h1.trans h2.symm) (by decide)

end FeatureLists

end Ns2
