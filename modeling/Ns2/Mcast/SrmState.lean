import Ns2.Lib.Machine

/-! What an agent of scalable reliable multicast knows about a sender: the last session and data
messages, and a bit vector of the data messages received, that grows by doubling. -/

namespace Ns2

/-- `received_` is empty while the pointer is null. The fields behind `recvmax_` belong to the agents
with session scopes. -/
structure SRMinfo where
  sender_ : ℤ
  lsess_ : ℤ
  sendTime_ : ℤ
  recvTime_ : ℤ
  distance_ : ℚ
  ldata_ : ℤ
  received_ : List (BitVec 8)
  recvmax_ : ℤ
  lglbsess_ : ℤ
  llocsess_ : ℤ
  lrepsess_ : ℤ
  repid_ : ℤ
  senderFlag_ : ℤ
  scopeFlag_ : ℤ
  activeFlag_ : ℤ
  distanceFlag_ : ℤ
  deriving DecidableEq

namespace SRMinfo

def BITVEC_SIZE_DEFAULT : ℕ := 256

def ACTIVE : ℤ := 1
def INACTIVE : ℤ := 0
def SELF_DISTANCE : ℤ := 1
def REP_DISTANCE : ℤ := 2
def NO_DISTANCE : ℤ := 0

/-- The constructor leaves `repid_` and `scopeFlag_` as the memory had them. -/
def new (sender repid scopeFlag : ℤ) : SRMinfo where
  sender_ := sender
  lsess_ := -1
  sendTime_ := 0
  recvTime_ := 0
  distance_ := 1
  ldata_ := -1
  received_ := []
  recvmax_ := -1
  lglbsess_ := -1
  llocsess_ := -1
  lrepsess_ := -1
  repid_ := repid
  senderFlag_ := 0
  scopeFlag_ := scopeFlag
  activeFlag_ := ACTIVE
  distanceFlag_ := NO_DISTANCE

/-- `while (nsize <= id) nsize *= 2` -/
def grow (nsize id : ℕ) : ℕ :=
  if 0 < nsize ∧ nsize ≤ id then grow (2 * nsize) id else nsize
termination_by id + 1 - nsize

section

-- what a new array holds before it is written
variable (junk : SRMinfo → ℕ → BitVec 8)

/-- The first array, which is cleared. -/
def allocate (sp : SRMinfo) : SRMinfo :=
  if sp.received_ = [] then
    { sp with received_ := List.replicate BITVEC_SIZE_DEFAULT 0, recvmax_ := BITVEC_SIZE_DEFAULT }
  else sp

/-- The new array has the old bytes, as many cleared ones, and behind them what it was born with. -/
def widen (sp : SRMinfo) (id : ℕ) : SRMinfo :=
  if sp.recvmax_ ≤ id then
    let osize := sp.received_.length
    let nsize := grow osize id
    let nvec := (List.range nsize).map fun k =>
      if k < osize then sp.received_.getD k 0 else if k < 2 * osize then 0 else junk sp k
    { sp with received_ := nvec, recvmax_ := nsize }
  else sp

def resize (sp : SRMinfo) (id : ℕ) : SRMinfo := widen junk (allocate sp) id

/-- The bit of a message in the vector as it is. -/
def bit (sp : SRMinfo) (id : ℕ) : Bool := (sp.received_.getD (id / 8) 0).getLsbD (id % 8)

/-- `none` is the failure of `assert(id >= 0)`. -/
def ifReceived (sp : SRMinfo) (id : ℤ) : Option (Bool × SRMinfo) :=
  if 0 ≤ id then
    let sp := if id ≥ sp.recvmax_ then resize junk sp id.toNat else sp
    some (sp.bit id.toNat, sp)
  else none

def setReceived (sp : SRMinfo) (id : ℤ) : Option (Bool × SRMinfo) :=
  (ifReceived junk sp id).map fun r =>
    let k := id.toNat
    let byte := r.2.received_.getD (k / 8) 0 ||| 1#8 <<< (k % 8)
    (r.1, { r.2 with received_ := r.2.received_.set (k / 8) byte })

end

/-- The bound of the vector is its length, or the vector is still to be allocated. -/
def Sized (sp : SRMinfo) : Prop :=
  (sp.received_ = [] ∧ sp.recvmax_ = -1) ∨
    (BITVEC_SIZE_DEFAULT ≤ sp.received_.length ∧ sp.recvmax_ = sp.received_.length)

/-- Nothing but the vector differs, and no bit of it. -/
structure Widened (sp sp' : SRMinfo) : Prop where
  same : sp' = { sp with received_ := sp'.received_, recvmax_ := sp'.recvmax_ }
  sized : sp'.Sized
  bits : ∀ k, sp'.bit k = sp.bit k
  length : sp.received_.length ≤ sp'.received_.length

theorem Widened.trans {a b c : SRMinfo} (h : Widened a b) (h' : Widened b c) : Widened a c where
  same := by
    rw [h'.same, h.same]
  sized := h'.sized
  bits k := (h'.bits k).trans (h.bits k)
  length := h.length.trans h'.length

theorem grow_of_lt {nsize id : ℕ} (h : id < nsize) : grow nsize id = nsize := by
  rw [grow, if_neg (by omega)]

theorem grow_self {n : ℕ} (h : 0 < n) : grow n n = 2 * n := by
  rw [grow, if_pos ⟨h, le_refl n⟩, grow_of_lt (by omega)]

theorem bit_of_length_le {sp : SRMinfo} {k : ℕ} (h : sp.received_.length ≤ k / 8) :
    sp.bit k = false := by
  simp [bit, List.getElem?_eq_none h]

section

variable {junk : SRMinfo → ℕ → BitVec 8} {sp : SRMinfo}

theorem resize_nil (h : sp.received_ = []) :
    resize junk sp 0 = { sp with
      received_ := List.replicate BITVEC_SIZE_DEFAULT 0, recvmax_ := BITVEC_SIZE_DEFAULT } := by
  have hne : BITVEC_SIZE_DEFAULT ≠ 0 := by decide
  simp [resize, allocate, h, widen, hne]

theorem resize_nil_widened (h : sp.received_ = []) :
    Widened sp (resize junk sp 0) ∧ 0 < (resize junk sp 0).received_.length := by
  rw [resize_nil h]
  refine ⟨⟨rfl, .inr ⟨by simp, by simp⟩, fun k => ?_, by simp [h]⟩, ?_⟩
  · have hz : sp.bit k = false := bit_of_length_le (by simp [h])
    rw [hz]
    by_cases hk : k / 8 < BITVEC_SIZE_DEFAULT
    · simp [bit, hk]
    · exact bit_of_length_le (by simpa using not_lt.mp hk)
  · rw [List.length_replicate]
    decide

/-- An array that grows by one bit past its bound is doubled, and all of the new half is cleared. -/
theorem resize_full (h : BITVEC_SIZE_DEFAULT ≤ sp.received_.length)
    (hm : sp.recvmax_ = sp.received_.length) :
    Widened sp (resize junk sp sp.received_.length) ∧
      (resize junk sp sp.received_.length).received_.length = 2 * sp.received_.length := by
  have hpos : 0 < sp.received_.length := by
    simp only [BITVEC_SIZE_DEFAULT] at h
    omega
  have hne : sp.received_ ≠ [] := List.ne_nil_of_length_pos hpos
  have hr : resize junk sp sp.received_.length = { sp with
      received_ := (List.range (2 * sp.received_.length)).map (fun k =>
        if k < sp.received_.length then sp.received_.getD k 0
        else if k < 2 * sp.received_.length then 0 else junk sp k),
      recvmax_ := (2 * sp.received_.length : ℕ) } := by
    simp [resize, allocate, hne, widen, hm, grow_self hpos]
  rw [hr]
  refine ⟨⟨rfl, .inr ⟨?_, ?_⟩, fun k => ?_, ?_⟩, ?_⟩
  · simp only [List.length_map, List.length_range]
    omega
  · simp
  · by_cases hk : k / 8 < 2 * sp.received_.length
    · by_cases hl : k / 8 < sp.received_.length
      · simp [bit, hk, hl]
      · simp [bit, hk, hl]
    · rw [bit_of_length_le (by simpa using not_lt.mp hk), bit_of_length_le (by omega)]
  · simp only [List.length_map, List.length_range]
    omega
  · simp

variable (junk) in
theorem ifReceived_spec (h : sp.Sized) {id : ℕ} (hid : id ≤ sp.received_.length) :
    ∃ sp', ifReceived junk sp id = some (sp.bit id, sp') ∧ Widened sp sp' ∧
      id < sp'.received_.length := by
  rcases h with ⟨hnil, hm⟩ | ⟨hlen, hm⟩
  · obtain rfl : id = 0 := by simpa [hnil] using hid
    obtain ⟨hw, hl⟩ := resize_nil_widened hnil
    exact ⟨resize junk sp 0, by simp [ifReceived, hm, hw.bits], hw, hl⟩
  · rcases Nat.lt_or_eq_of_le hid with hlt | rfl
    · refine ⟨sp, ?_, ⟨rfl, .inr ⟨hlen, hm⟩, fun _ => rfl, le_refl _⟩, hlt⟩
      have hge : ¬ (id : ℤ) ≥ sp.recvmax_ := by omega
      simp [ifReceived, hge]
    · obtain ⟨hw, hl⟩ := resize_full hlen hm
      refine ⟨resize junk sp sp.received_.length, ?_, hw, ?_⟩
      · simp [ifReceived, hm, hw.bits]
      · simp only [BITVEC_SIZE_DEFAULT] at hlen
        omega

variable (junk) in
theorem setReceived_spec (h : sp.Sized) {n : ℕ} (hid : n ≤ sp.received_.length) :
    ∃ sp', setReceived junk sp n = some (sp.bit n, sp') ∧ sp'.Sized ∧
      sp' = { sp with received_ := sp'.received_, recvmax_ := sp'.recvmax_ } ∧
      n < sp'.received_.length ∧ ∀ k, sp'.bit k = (k == n || sp.bit k) := by
  obtain ⟨sq, hq, hw, hl⟩ := ifReceived_spec junk h hid
  refine ⟨_, by rw [setReceived, hq]; rfl, ?_, ?_, ?_, fun k => ?_⟩
  · rcases hw.sized with ⟨hnil, hm⟩ | ⟨hlen, hm⟩
    · simp [hnil] at hl
    · exact .inr ⟨by simpa using hlen, by simpa using hm⟩
  · dsimp only
    rw [hw.same]
  · simpa using hl
  · have hbyte : n / 8 < sq.received_.length := by omega
    rw [← hw.bits k]
    simp only [bit, Int.toNat_natCast]
    by_cases hb : k / 8 = n / 8
    · rw [hb]
      simp only [List.getD_eq_getElem?_getD, List.getElem?_set_self hbyte, Option.getD_some]
      by_cases hk : k = n
      · subst hk
        simp [Nat.mod_lt]
      · have hne : k % 8 ≠ n % 8 := by omega
        have h8 : n % 8 < 8 := Nat.mod_lt _ (by decide)
        have h8' : k % 8 < 8 := Nat.mod_lt _ (by decide)
        have hkb : (k == n) = false := by simpa using hk
        rw [hkb, Bool.false_or, BitVec.getLsbD_or]
        have hz : (1#8 <<< (n % 8)).getLsbD (k % 8) = false := by
          simp only [BitVec.getLsbD_shiftLeft, BitVec.getLsbD_one]
          grind
        rw [hz, Bool.or_false]
    · have hk : (k == n) = false := by
        simp only [beq_eq_false_iff_ne]
        rintro rfl
        exact hb rfl
      rw [hk, Bool.false_or]
      simp [List.getElem?_set_ne (Ne.symm hb)]

end

end SRMinfo

end Ns2
