import Ns2.Dccp.AckVectorCells

/-! An ack vector is sent in an option of a packet and rebuilt by the peer. -/

namespace Ns2

open ByteRecords RingWindow RunLength

/-- `DCCPOptions` -/
structure DccpOptions where
  options_ : List Byte
  max_size_ : ℕ

/-- What the parser gets: an error, or the type and the data of an option. -/
inductive OptionResult where
  | error (code : ℤ)
  | found (type : Byte) (data : List Byte)

namespace DccpOptions

def singleByteLimit : ℕ := 32

def maxLength : ℕ := 255

def ackVectorN0 : Byte := 37

def ackVectorN1 : Byte := 38

/-- `addOption`, with the error code -/
def addOption (o : DccpOptions) (type : Byte) (data : List Byte) (dataSize : ℕ) :
    DccpOptions × ℤ :=
  let length := if dataSize = 0 then 1 else dataSize + 2
  if (type.toNat < singleByteLimit ∧ dataSize > 0) ∨
      (type.toNat ≥ singleByteLimit ∧ dataSize = 0) ∨ length > maxLength then (o, -1)
  else if o.options_.length + length > o.max_size_ then (o, -2)
  else if dataSize > 0 then
    ({ o with options_ := o.options_ ++ type :: BitVec.ofNat 8 length :: data.take dataSize }, 0)
  else ({ o with options_ := o.options_ ++ [type] }, 0)

def addFeatureOption (o : DccpOptions) (type feat_num : Byte) (data : List Byte) (dataSize : ℕ) :
    DccpOptions × ℤ :=
  let length := dataSize + 3
  if dataSize = 0 ∨ length > maxLength then (o, -1)
  else if type.toNat < 33 ∨ type.toNat > 36 then (o, -4)
  else if o.options_.length + length > o.max_size_ then (o, -2)
  else
    ({ o with options_ :=
        o.options_ ++ type :: BitVec.ofNat 8 length :: feat_num :: data.take dataSize }, 0)

/-- `nextOption`, with the position that the walk goes on from -/
def nextOption (o : DccpOptions) (current maxSize : ℕ) : OptionResult × ℕ :=
  if current ≥ o.options_.length then (.error (-3), current)
  else
    let type := o.options_.getD current 0
    if type.toNat < singleByteLimit then (.found type [], current + 1)
    else
      let dataSize : ℤ := (o.options_.getD (current + 1) 0).toNat - 2
      if (maxSize : ℤ) ≥ dataSize then
        if dataSize < 0 then (.error dataSize, (current + 2 + dataSize).toNat)
        else (.found type ((o.options_.drop (current + 2)).take dataSize.toNat),
          current + 2 + dataSize.toNat)
      else (.error (-1), current)

/-- The loop of `parseOptions`; `none` is an abort. -/
def parseLoop {σ : Type} (processOption : σ → Byte → List Byte → Option (σ × Bool))
    (o : DccpOptions) : ℕ → ℕ → σ → Option (σ × Bool)
  | 0, _, a => some (a, true)
  | f + 1, current, a =>
    match o.nextOption current maxLength with
    | (.error _, _) => some (a, true)
    | (.found type data, next) =>
      match processOption a type data with
      | none => none
      | some (a, false) => some (a, false)
      | some (a, true) => parseLoop processOption o f next a

def parseOptions {σ : Type} (processOption : σ → Byte → List Byte → Option (σ × Bool))
    (o : DccpOptions) (a : σ) : Option (σ × Bool) :=
  parseLoop processOption o (o.options_.length + 1) 0 a

end DccpOptions

namespace AckVector

/-- The end of the range of some bytes, as `setAckVector` computes it. -/
def seqEnd : List Byte → ℕ → ℕ
  | [], s => s
  | [b], s => seqSub s (runLength b)
  | b :: c :: l, s => seqEnd (c :: l) (seqSub s (runLength b + 1))

def setAckVector (vect : List Byte) (seq_start : ℕ) (ene : Byte) :
    ℕ → AckVector → AckVector × Bool
  | 0, v => (v, false)
  | t + 1, v =>
    if vect.length > v.max_size_ then
      { v with size_ := 0 }.doubleAnd (setAckVector vect seq_start ene t)
    else
      ({ v with
        vector_ := fun i => if i < vect.length then vect.getD i 0 else v.vector_ i
        size_ := vect.length
        head_ := 0
        tail_ := vect.length - 1
        seq_head_ := seq_start
        seq_tail_ := seqEnd vect seq_start
        ene_ := ene
        ack_hist_ := [] }, true)

/-- `getAckVector`, with the error code -/
def getAckVector (v : AckVector) (size : ℕ) : Except ℤ (List Byte) :=
  if v.size_ = 0 then .error (-1)
  else if v.size_ > size then .error (-2)
  else .ok ((List.range v.size_).map fun i => v.vector_ ((v.head_ + i) % v.max_size_))

/-- The entry of the history for a vector that is sent; `none` is an abort. -/
def addToAckHistory (v : AckVector) (seqnum : ℕ) : Option AckVector :=
  if ∃ elm ∈ v.ack_hist_.head?, elm.seq_sent_ ≥ seqnum then none
  else if ∃ elm ∈ v.ack_hist_.head?, elm.ack_num_ > v.seq_head_ then none
  else some { v with ack_hist_ := ⟨seqnum, v.seq_head_, v.ene_⟩ :: v.ack_hist_ }

/-- The type of the option for a vector. -/
def optionType (v : AckVector) : Byte :=
  if v.ene_ = 0 then DccpOptions.ackVectorN0 else DccpOptions.ackVectorN1

/-- `sendAckVector` into the options of a packet; `none` is an abort. The size is passed on as a
byte. -/
def sendAckVector (v : AckVector) (seqnum acknum : ℕ) (o : DccpOptions) :
    Option (AckVector × DccpOptions) :=
  if acknum ≠ v.seq_head_ then none
  else if v.size_ = 0 then none
  else
    match v.getAckVector v.size_ with
    | .error _ => none
    | .ok vect =>
      let r := o.addOption v.optionType vect (v.size_ % 2 ^ 8)
      if r.2 = 0 then (v.addToAckHistory seqnum).map fun v => (v, r.1) else none

end AckVector

/-- What an agent keeps of the ack vectors that it receives. -/
structure DccpAgent where
  ackv_size_ : ℕ
  ackv_recv_ : Option AckVector

/-- `processOption`, where `other` tells whether an option of another type is processed; `none` is
an abort. -/
def DccpAgent.processOption (other : Byte → List Byte → Bool) (isData : Bool) (ack_num_ : ℕ)
    (a : DccpAgent) (type : Byte) (data : List Byte) : Option (DccpAgent × Bool) :=
  if type = DccpOptions.ackVectorN0 ∨ type = DccpOptions.ackVectorN1 then
    if isData then some (a, true)
    else if a.ackv_recv_.isSome then none
    else
      let r := (AckVector.ofSize a.ackv_size_).setAckVector data ack_num_
        (1 - (DccpOptions.ackVectorN1 - type)) AckVector.tries
      some ({ a with ackv_recv_ := if r.2 then some r.1 else none }, true)
  else some (a, other type data)

namespace DccpOptions

/-- The bytes of an option. -/
def encode (x : Byte × List Byte) : List Byte :=
  if x.2 = [] then [x.1] else x.1 :: BitVec.ofNat 8 (x.2.length + 2) :: x.2

/-- An option that the area can hold. -/
def Proper (x : Byte × List Byte) : Prop :=
  (x.1.toNat < singleByteLimit ∧ x.2 = []) ∨
    (singleByteLimit ≤ x.1.toNat ∧ x.2 ≠ [] ∧ x.2.length ≤ 253)

theorem encode_pos (x : Byte × List Byte) : 0 < (encode x).length := by
  unfold encode
  split_ifs <;> simp

theorem getD_append {A B : List Byte} {i : ℕ} : (A ++ B).getD (A.length + i) 0 = B.getD i 0 := by
  rw [List.getD_eq_getElem?_getD, List.getElem?_append_right (by omega), Nat.add_sub_cancel_left,
    ← List.getD_eq_getElem?_getD]

/-- An option is read as it was written. -/
theorem nextOption_encode {o : DccpOptions} {A B : List Byte} {x : Byte × List Byte}
    (ho : o.options_ = A ++ (encode x ++ B)) (hx : Proper x) :
    o.nextOption A.length maxLength = (.found x.1 x.2, A.length + (encode x).length) := by
  have hpos := encode_pos x
  obtain ⟨type, data⟩ := x
  rw [nextOption, ho, if_neg (by rw [List.length_append, List.length_append]; omega)]
  dsimp only
  rcases hx with ⟨hlow, hnil⟩ | ⟨hhigh, hne, hlen⟩
  · dsimp only at hnil hlow
    subst hnil
    have htype : (A ++ (encode (type, []) ++ B)).getD A.length 0 = type := getD_append (i := 0)
    rw [htype, if_pos hlow]
    rfl
  · dsimp only at hne hlen hhigh
    have hencode : encode (type, data) = type :: BitVec.ofNat 8 (data.length + 2) :: data :=
      if_neg hne
    have hpos := List.length_pos_of_ne_nil hne
    have htype : (A ++ (encode (type, data) ++ B)).getD A.length 0 = type := by
      rw [hencode]
      exact getD_append (i := 0)
    have hsize : (A ++ (encode (type, data) ++ B)).getD (A.length + 1) 0 =
        BitVec.ofNat 8 (data.length + 2) := by
      rw [hencode]
      exact getD_append
    have hdrop : (A ++ (encode (type, data) ++ B)).drop (A.length + 2) = data ++ B := by
      rw [hencode, List.drop_append]
      simp
    have hbyte : (((BitVec.ofNat 8 (data.length + 2)).toNat : ℕ) : ℤ) - 2 = data.length := by
      rw [BitVec.toNat_ofNat, Nat.mod_eq_of_lt (by omega)]
      omega
    rw [htype, hsize, hbyte, hdrop, if_neg (by omega), if_pos (by rw [maxLength]; omega),
      if_neg (by omega), Int.toNat_natCast, List.take_left, hencode, List.length_cons,
      List.length_cons, show A.length + 2 + data.length = A.length + (data.length + 1 + 1) by omega]

/-- The processing of some options. -/
def processAll {σ : Type} (processOption : σ → Byte → List Byte → Option (σ × Bool)) :
    List (Byte × List Byte) → σ → Option (σ × Bool)
  | [], a => some (a, true)
  | x :: xs, a =>
    match processOption a x.1 x.2 with
    | none => none
    | some (a, false) => some (a, false)
    | some (a, true) => processAll processOption xs a

theorem parseLoop_eq {σ : Type} (processOption : σ → Byte → List Byte → Option (σ × Bool))
    {o : DccpOptions} {A : List Byte} {xs : List (Byte × List Byte)} {f : ℕ} (a : σ)
    (ho : o.options_ = A ++ xs.flatMap encode) (hxs : ∀ x ∈ xs, Proper x) (hf : xs.length < f) :
    parseLoop processOption o f A.length a = processAll processOption xs a := by
  induction xs generalizing f A a with
  | nil =>
    obtain ⟨f, rfl⟩ : ∃ g, f = g + 1 := ⟨f - 1, by omega⟩
    have hend : o.nextOption A.length maxLength = (.error (-3), A.length) := by
      rw [nextOption, ho, if_pos (by simp)]
    rw [parseLoop, hend]
    rfl
  | cons x xs ih =>
    obtain ⟨f, rfl⟩ : ∃ g, f = g + 1 := ⟨f - 1, by omega⟩
    rw [List.flatMap_cons] at ho
    rw [List.length_cons] at hf
    have hrest : ∀ a, parseLoop processOption o f (A.length + (encode x).length) a =
        processAll processOption xs a := fun a => by
      rw [← List.length_append]
      exact ih a (by rw [ho, List.append_assoc]) (fun y hy => hxs y (List.mem_cons_of_mem _ hy))
        (by omega)
    rw [parseLoop, nextOption_encode ho (hxs x (by simp)), processAll]
    dsimp only
    cases processOption a x.1 x.2 with
    | none => rfl
    | some r =>
      obtain ⟨a', ok⟩ := r
      cases ok with
      | true => exact hrest a'
      | false => rfl

theorem length_le_encode (xs : List (Byte × List Byte)) :
    xs.length ≤ (xs.flatMap encode).length := by
  induction xs with
  | nil => exact le_rfl
  | cons x xs ih =>
    have := encode_pos x
    rw [List.flatMap_cons, List.length_append, List.length_cons]
    omega

/-- The parser finds the options that the area was made of. -/
theorem parseOptions_eq {σ : Type} (processOption : σ → Byte → List Byte → Option (σ × Bool))
    {o : DccpOptions} {xs : List (Byte × List Byte)} (a : σ) (ho : o.options_ = xs.flatMap encode)
    (hxs : ∀ x ∈ xs, Proper x) :
    o.parseOptions processOption a = processAll processOption xs a := by
  have hle := length_le_encode xs
  rw [← ho] at hle
  exact parseLoop_eq (A := []) processOption a ho hxs (by omega)

/-- An addition appends the bytes of the option. -/
theorem addOption_eq {o : DccpOptions} {type : Byte} {data : List Byte} {n : ℕ}
    (htype : singleByteLimit ≤ type.toNat) (hdata : n ≤ data.length) :
    o.addOption type data n =
      if n = 0 ∨ n > 253 then (o, -1)
      else if o.options_.length + n + 2 > o.max_size_ then (o, -2)
      else ({ o with options_ := o.options_ ++ encode (type, data.take n) }, 0) := by
  rw [addOption, maxLength]
  by_cases hzero : n = 0
  · rw [if_pos (.inr (.inl ⟨htype, hzero⟩)), if_pos (.inl hzero)]
  rw [if_neg hzero]
  by_cases hlong : n > 253
  · rw [if_pos (.inr (.inr (by omega))), if_pos (.inr hlong)]
  have hfits : ¬ ((type.toNat < singleByteLimit ∧ n > 0) ∨
      (type.toNat ≥ singleByteLimit ∧ n = 0) ∨ n + 2 > 255) := by omega
  rw [if_neg hfits, ← Nat.add_assoc]
  have hshort : ¬ (n = 0 ∨ n > 253) := by omega
  rw [if_neg hshort]
  by_cases hroom : o.options_.length + n + 2 > o.max_size_
  · rw [if_pos hroom, if_pos hroom]
  · have hne : data.take n ≠ [] := fun hnil => by
      have := congrArg List.length hnil
      rw [List.length_take, List.length_nil] at this
      omega
    rw [if_neg hroom, if_neg hroom, if_pos (Nat.pos_of_ne_zero hzero), encode, if_neg hne,
      List.length_take, Nat.min_eq_left hdata]

/-- A feature option is an option whose data begin with the number of the feature. -/
theorem addFeatureOption_eq {o o' : DccpOptions} {type feat_num : Byte} {data : List Byte} {n : ℕ}
    (hdata : n ≤ data.length) (h : o.addFeatureOption type feat_num data n = (o', 0)) :
    o'.options_ = o.options_ ++ encode (type, feat_num :: data.take n) ∧
      Proper (type, feat_num :: data.take n) := by
  rw [addFeatureOption, maxLength] at h
  split_ifs at h with h1 h2 h3
  · cases (Prod.mk.inj h).2
  · cases (Prod.mk.inj h).2
  · cases (Prod.mk.inj h).2
  · obtain rfl := (Prod.mk.inj h).1
    have hlen : (feat_num :: data.take n).length = n + 1 := by
      rw [List.length_cons, List.length_take, Nat.min_eq_left hdata]
    refine ⟨?_, .inr ⟨?_, by simp, ?_⟩⟩
    · rw [encode, if_neg (by simp), hlen]
    · dsimp only
      rw [singleByteLimit]
      omega
    · dsimp only
      omega

end DccpOptions

namespace AckVector

variable {v : AckVector} {l : List Byte}

theorem seqEnd_eq {l : List Byte} {s : ℕ} (hl : l ≠ []) (hs : (statesOf l).length ≤ s + 1)
    (hlt : s < 2 ^ 32) : seqEnd l s + (statesOf l).length = s + 1 := by
  induction l generalizing s with
  | nil => exact absurd rfl hl
  | cons b l ih =>
    have hlen : (statesOf (b :: l)).length = runLength b + 1 + (statesOf l).length :=
      length_expand_cons b l
    cases l with
    | nil =>
      rw [show (statesOf []).length = 0 from rfl] at hlen
      rw [seqEnd, seqSub_eq (by omega) hlt]
      omega
    | cons c l =>
      have hpos := length_le_statesOf (c :: l)
      rw [List.length_cons] at hpos
      rw [seqEnd, seqSub_eq (by omega) hlt]
      have := ih (s := s - (runLength b + 1)) (by simp) (by omega) (by omega)
      omega

/-- An empty or old vector takes over what is given, however often it has to be doubled. -/
theorem setAckVector_takes {l : List Byte} (hl : l ≠ []) {s : ℕ}
    (hs : (statesOf l).length ≤ s + 1) (hlt : s < 2 ^ 32) (ene : Byte)
    (hmax : l.length ≤ maxAckvSize) :
    ∀ t (v : AckVector), 2 ≤ v.max_size_ → v.max_size_ ≤ maxAckvSize →
      l.length ≤ v.max_size_ * 2 ^ t → ∃ w, v.setAckVector l s ene (t + 1) = (w, true) ∧
        w.Stores l ∧ w.seq_head_ = s := by
  have hroom : ∀ t (v : AckVector), 2 ≤ v.max_size_ → v.max_size_ ≤ maxAckvSize →
      l.length ≤ v.max_size_ → ∃ w, v.setAckVector l s ene (t + 1) = (w, true) ∧
        w.Stores l ∧ w.seq_head_ = s := by
    intro t v h2 hn hfits
    have hpos := List.length_pos_of_ne_nil hl
    rw [setAckVector, if_neg (by omega)]
    refine ⟨_, rfl, ⟨rfl, hfits, h2, hn, fun i hi => ?_, fun _ => Nat.lt_of_lt_of_le hpos hfits,
      fun _ => ?_, fun _ => seqEnd_eq hl hs hlt, hlt⟩, rfl⟩
    · dsimp only
      rw [Nat.zero_add, Nat.mod_eq_of_lt (by omega), if_pos hi, List.getElem?_eq_getElem hi,
        List.getD_eq_getElem _ _ hi]
    · dsimp only
      rw [Nat.zero_add, Nat.mod_eq_of_lt (by omega)]
  intro t
  induction t with
  | zero => exact fun v h2 hn hlen => hroom 0 v h2 hn (by simpa using hlen)
  | succ t ih =>
    intro v h2 hn hlen
    by_cases hfits : l.length ≤ v.max_size_
    · exact hroom (t + 1) v h2 hn hfits
    · rw [setAckVector, if_pos (by omega), doubleAnd, doubleMaxSize, if_neg (by dsimp only; omega)]
      apply ih
      · dsimp only
        split_ifs <;> omega
      · dsimp only
        split_ifs <;> omega
      · dsimp only
        split_ifs
        · calc l.length ≤ maxAckvSize := hmax
            _ ≤ maxAckvSize * 2 ^ t := Nat.le_mul_of_pos_right _ (Nat.two_pow_pos t)
        · rw [Nat.mul_assoc, ← Nat.pow_succ']
          exact hlen

/-- A vector that was imported holds what was given. -/
theorem setAckVector_stores {n : ℕ} (h2 : 2 ≤ n) (hn : n ≤ maxAckvSize) {l : List Byte}
    (hl : l ≠ []) (hlen : l.length ≤ n * 2 ^ 16) (hmax : l.length ≤ maxAckvSize) {s : ℕ}
    (hs : (statesOf l).length ≤ s + 1) (hlt : s < 2 ^ 32) (ene : Byte) :
    ∃ w, (ofSize n).setAckVector l s ene tries = (w, true) ∧ w.Stores l ∧ w.seq_head_ = s :=
  setAckVector_takes hl hs hlt ene hmax 16 (ofSize n) h2 hn hlen

theorem Stores.getAckVector_eq (h : v.Stores l) (hl : l ≠ []) :
    v.getAckVector v.size_ = .ok l := by
  have hsize := h.size
  rw [getAckVector, if_neg fun hz => hl (h.size_eq_zero.mp hz), if_neg (by omega)]
  congr 1
  apply List.ext_getElem?
  intro i
  by_cases hi : i < l.length
  · rw [h.holds i hi, List.getElem?_map, List.getElem?_range (by omega)]
    rfl
  · rw [List.getElem?_eq_none (by rw [List.length_map, List.length_range]; omega),
      List.getElem?_eq_none (by omega)]

/-- What makes `sendAckVector` abort. -/
def Refuses (v : AckVector) (seqnum acknum : ℕ) (o : DccpOptions) : Prop :=
  acknum ≠ v.seq_head_ ∨ v.size_ % 256 = 0 ∨ v.size_ % 256 > 253 ∨
    o.options_.length + v.size_ % 256 + 2 > o.max_size_ ∨
    ∃ elm ∈ v.ack_hist_.head?, elm.seq_sent_ ≥ seqnum ∨ elm.ack_num_ > v.seq_head_

theorem Stores.sendAckVector_eq (h : v.Stores l) (hl : l ≠ []) {seqnum acknum : ℕ}
    {o : DccpOptions} (hr : ¬ v.Refuses seqnum acknum o) :
    v.sendAckVector seqnum acknum o =
      some ({ v with ack_hist_ := ⟨seqnum, v.seq_head_, v.ene_⟩ :: v.ack_hist_ },
        { o with options_ :=
            o.options_ ++ DccpOptions.encode (v.optionType, l.take (v.size_ % 256)) }) := by
  have hsize := h.size
  have hhigh : DccpOptions.singleByteLimit ≤ v.optionType.toNat := by
    unfold optionType
    split_ifs <;> decide
  simp only [Refuses, not_or, not_exists, not_and] at hr
  obtain ⟨hack, hzero, hlong, hroom, hhist⟩ := hr
  have hadd := @DccpOptions.addOption_eq o v.optionType l (v.size_ % 256) hhigh (by omega)
  rw [if_neg (by omega), if_neg hroom] at hadd
  have hadd' : o.addOption v.optionType l (v.size_ % 2 ^ 8) = _ := hadd
  have hnew : ¬ ∃ elm ∈ v.ack_hist_.head?, elm.seq_sent_ ≥ seqnum :=
    fun ⟨elm, helm, hge⟩ => (hhist elm helm).1 hge
  have hold : ¬ ∃ elm ∈ v.ack_hist_.head?, elm.ack_num_ > v.seq_head_ :=
    fun ⟨elm, helm, hgt⟩ => (hhist elm helm).2 hgt
  rw [sendAckVector, if_neg hack, if_neg fun hz => hl (h.size_eq_zero.mp hz), h.getAckVector_eq hl]
  dsimp only
  rw [hadd', if_pos rfl, addToAckHistory, if_neg hnew, if_neg hold]
  rfl

theorem Stores.sendAckVector_refused (h : v.Stores l) (hl : l ≠ []) {seqnum acknum : ℕ}
    {o : DccpOptions} (hr : v.Refuses seqnum acknum o) :
    v.sendAckVector seqnum acknum o = none := by
  have hsize := h.size
  have hhigh : DccpOptions.singleByteLimit ≤ v.optionType.toNat := by
    unfold optionType
    split_ifs <;> decide
  have hadd : o.addOption v.optionType l (v.size_ % 2 ^ 8) = _ :=
    @DccpOptions.addOption_eq o v.optionType l (v.size_ % 256) hhigh (by omega)
  rw [sendAckVector]
  by_cases hack : acknum ≠ v.seq_head_
  · rw [if_pos hack]
  rw [if_neg hack, if_neg fun hz => hl (h.size_eq_zero.mp hz), h.getAckVector_eq hl]
  dsimp only
  by_cases hzero : v.size_ % 256 = 0 ∨ v.size_ % 256 > 253
  · rw [hadd, if_pos hzero, if_neg (show ¬ (-1 : ℤ) = 0 by decide)]
  rw [if_neg hzero] at hadd
  by_cases hroom : o.options_.length + v.size_ % 256 + 2 > o.max_size_
  · rw [hadd, if_pos hroom, if_neg (show ¬ (-2 : ℤ) = 0 by decide)]
  rw [hadd, if_neg hroom, if_pos rfl, addToAckHistory]
  by_cases hnew : ∃ elm ∈ v.ack_hist_.head?, elm.seq_sent_ ≥ seqnum
  · rw [if_pos hnew]
    rfl
  · have hold : ∃ elm ∈ v.ack_hist_.head?, elm.ack_num_ > v.seq_head_ := by
      rcases hr with hr | hr | hr | hr | ⟨elm, helm, hr | hr⟩
      · exact absurd hr hack
      · exact absurd (.inl hr) hzero
      · exact absurd (.inr hr) hzero
      · exact absurd hr hroom
      · exact absurd ⟨elm, helm, hr⟩ hnew
      · exact ⟨elm, helm, hr⟩
    rw [if_neg hnew, if_pos hold]
    rfl

end AckVector

namespace DccpAgent

variable {other : Byte → List Byte → Bool}

/-- An option that is no ack vector and that is processed. -/
def Passes (other : Byte → List Byte → Bool) (x : Byte × List Byte) : Prop :=
  DccpOptions.Proper x ∧ x.1 ≠ DccpOptions.ackVectorN0 ∧ x.1 ≠ DccpOptions.ackVectorN1 ∧
    other x.1 x.2 = true

theorem processAll_passes {xs ys : List (Byte × List Byte)} (hxs : ∀ x ∈ xs, Passes other x)
    (ack : ℕ) (a : DccpAgent) :
    DccpOptions.processAll (processOption other false ack) (xs ++ ys) a =
      DccpOptions.processAll (processOption other false ack) ys a := by
  induction xs with
  | nil => rfl
  | cons x xs ih =>
    obtain ⟨-, h0, h1, hother⟩ := hxs x (by simp)
    rw [List.cons_append, DccpOptions.processAll, processOption,
      if_neg (by rintro (h | h); exact h0 h; exact h1 h), hother]
    exact ih fun y hy => hxs y (List.mem_cons_of_mem _ hy)

/-- The peer holds what stands in the option. -/
theorem parseOptions_rebuilds {before after : List (Byte × List Byte)} {type : Byte}
    {data : List Byte} {p : DccpOptions} {n ack : ℕ}
    (hp : p.options_ = (before ++ (type, data) :: after).flatMap DccpOptions.encode)
    (hbefore : ∀ x ∈ before, Passes other x) (hafter : ∀ x ∈ after, Passes other x)
    (htype : type = DccpOptions.ackVectorN0 ∨ type = DccpOptions.ackVectorN1) (hne : data ≠ [])
    (hlen : data.length ≤ 253) (hstates : (statesOf data).length ≤ ack + 1) (hack : ack < 2 ^ 32)
    (h2 : 2 ≤ n) (hn : n ≤ maxAckvSize) :
    ∃ w, p.parseOptions (processOption other false ack) ⟨n, none⟩ = some (⟨n, some w⟩, true) ∧
      w.Stores data ∧ w.seq_head_ = ack := by
  have hproper : ∀ x ∈ before ++ (type, data) :: after, DccpOptions.Proper x := by
    intro x hx
    rcases List.mem_append.mp hx with hx | hx
    · exact (hbefore x hx).1
    · rcases List.mem_cons.mp hx with rfl | hx
      · refine .inr ⟨?_, hne, hlen⟩
        rcases htype with rfl | rfl
        · exact Nat.le_of_ble_eq_true rfl
        · exact Nat.le_of_ble_eq_true rfl
      · exact (hafter x hx).1
  obtain ⟨w, hset, hstores, hhead⟩ := AckVector.setAckVector_stores h2 hn hne
    (show data.length ≤ n * 2 ^ 16 by omega) (hlen.trans (by decide)) hstates hack
    (1 - (DccpOptions.ackVectorN1 - type))
  refine ⟨w, ?_, hstores, hhead⟩
  rw [DccpOptions.parseOptions_eq _ _ hp hproper, processAll_passes hbefore,
    DccpOptions.processAll, processOption, if_pos htype]
  dsimp only
  rw [hset, if_neg Bool.false_ne_true]
  have hrest := @processAll_passes other after [] hafter ack ⟨n, some w⟩
  rw [List.append_nil] at hrest
  exact hrest

end DccpAgent

namespace AckVector

variable {v : AckVector} {l : List Byte}

/-- The peer rebuilds the states and the range of a vector from every packet that it is sent in,
unless more bytes than an option can hold are cut off. -/
theorem Stores.sendAckVector_rebuilds_iff (h : v.Stores l) (hl : l ≠ [])
    {other : Byte → List Byte → Bool} {before : List (Byte × List Byte)} {o : DccpOptions}
    (ho : o.options_ = before.flatMap DccpOptions.encode)
    (hbefore : ∀ x ∈ before, DccpAgent.Passes other x) {n : ℕ} (h2 : 2 ≤ n) (hn : n ≤ maxAckvSize)
    (seqnum acknum : ℕ) :
    (∀ (v' : AckVector) (o' : DccpOptions) (after : List (Byte × List Byte)) (p : DccpOptions),
      v.sendAckVector seqnum acknum o = some (v', o') →
      (∀ x ∈ after, DccpAgent.Passes other x) →
      p.options_ = o'.options_ ++ after.flatMap DccpOptions.encode →
      ∃ w : AckVector, p.parseOptions (DccpAgent.processOption other false acknum) ⟨n, none⟩ =
          some (⟨n, some w⟩, true) ∧ (∀ s, w.getState s = v.getState s) ∧
        w.seq_head_ = v.seq_head_ ∧ w.seq_tail_ = v.seq_tail_) ↔
      v.size_ ≤ 253 ∨ v.Refuses seqnum acknum o := by
  have hsize := h.size
  have hseqs := h.seqs hl
  have hpos := List.length_pos_of_ne_nil hl
  have htype : v.optionType = DccpOptions.ackVectorN0 ∨ v.optionType = DccpOptions.ackVectorN1 := by
    unfold optionType
    split_ifs
    · exact .inl rfl
    · exact .inr rfl
  have hsplit : l = l.take (v.size_ % 256) ++ l.drop (v.size_ % 256) :=
    (List.take_append_drop _ l).symm
  have hstates : (statesOf l).length = (statesOf (l.take (v.size_ % 256))).length +
      (statesOf (l.drop (v.size_ % 256))).length := by
    conv_lhs => rw [hsplit]
    rw [statesOf, expand_append, List.length_append]
  by_cases hr : v.Refuses seqnum acknum o
  · refine iff_of_true (fun v' o' after p hsend => ?_) (.inr hr)
    rw [h.sendAckVector_refused hl hr] at hsend
    cases hsend
  have hack : acknum = v.seq_head_ := by
    by_contra hne
    exact hr (.inl hne)
  have hmod : v.size_ % 256 ≠ 0 ∧ v.size_ % 256 ≤ 253 := by
    refine ⟨fun hzero => hr (.inr (.inl hzero)), ?_⟩
    by_contra hlong
    exact hr (.inr (.inr (.inl (by omega))))
  have hdata : l.take (v.size_ % 256) ≠ [] := fun hnil => by
    have := congrArg List.length hnil
    rw [List.length_take, List.length_nil] at this
    omega
  have hbelow := h.below
  have hrebuilt : ∀ (after : List (Byte × List Byte)) (p : DccpOptions), (∀ x ∈ after, DccpAgent.Passes other x) →
      p.options_ = o.options_ ++ DccpOptions.encode (v.optionType, l.take (v.size_ % 256)) ++
        after.flatMap DccpOptions.encode →
      ∃ w : AckVector, p.parseOptions (DccpAgent.processOption other false acknum) ⟨n, none⟩ =
          some (⟨n, some w⟩, true) ∧ w.Stores (l.take (v.size_ % 256)) ∧
        w.seq_head_ = acknum := by
    intro after p hafter hp
    refine @DccpAgent.parseOptions_rebuilds other before after _ _ p n acknum ?_ hbefore hafter htype
      hdata (by rw [List.length_take]; omega) (by omega) (by omega) h2 hn
    rw [hp, ho, List.flatMap_append, List.flatMap_cons, List.append_assoc]
  constructor
  · intro hall
    left
    by_contra hlong
    obtain ⟨w, hparse, hw, hhead⟩ := hrebuilt []
      { o with options_ :=
          o.options_ ++ DccpOptions.encode (v.optionType, l.take (v.size_ % 256)) }
      (List.forall_mem_nil _) (List.append_nil _).symm
    obtain ⟨w', hparse', -, hhead', htail'⟩ := hall _ _ [] _ (h.sendAckVector_eq hl hr)
      (List.forall_mem_nil _) (List.append_nil _).symm
    rw [hparse] at hparse'
    obtain rfl : w = w' := by
      have := (Prod.mk.inj (Option.some.inj hparse')).1
      injection this with _ hsome
      exact Option.some.inj hsome
    have hcut := hw.seqs hdata
    have hrest := length_le_statesOf (l.drop (v.size_ % 256))
    rw [List.length_drop] at hrest
    omega
  · rintro (hshort | hr')
    · intro v' o' after p hsend hafter hp
      rw [h.sendAckVector_eq hl hr] at hsend
      obtain ⟨-, rfl⟩ := Prod.mk.inj (Option.some.inj hsend)
      obtain ⟨w, hparse, hw, hhead⟩ := hrebuilt after p hafter hp
      rw [show v.size_ % 256 = v.size_ by omega, hsize, List.take_length] at hw
      have hcut := hw.seqs hl
      refine ⟨w, hparse, fun s => ?_, by omega, by omega⟩
      rw [hw.getState_eq, h.getState_eq, hhead, hack]
    · exact absurd hr' hr

/-- A vector of `n` packets that were received, one in each byte, up to the number 300. -/
theorem exists_received {n : ℕ} (hpos : 0 < n) (hn : n ≤ 300) :
    ∃ v : AckVector, v.Stores (List.replicate n 0) ∧ v.seq_head_ = 300 ∧ v.ack_hist_ = [] ∧
      v.size_ = n := by
  have hlen : (statesOf (List.replicate n 0)).length = n := by
    rw [statesOf, expand_replicate, List.length_replicate]
    exact Nat.one_mul n
  have hmax : maxAckvSize = 65535 := rfl
  obtain ⟨w, hset, hw, hhead⟩ := setAckVector_stores (n := 300) (s := 300) (by decide) (by decide)
    (l := List.replicate n 0) (by simp; omega) (by rw [List.length_replicate]; omega)
    (by rw [List.length_replicate]; omega) (by omega) (by decide) 0
  refine ⟨{ w with ack_hist_ := [] }, ⟨hw.size, hw.fits, hw.two_le, hw.le_max, hw.holds, hw.head,
    hw.tail, hw.seqs, hw.below⟩, hhead, rfl, hw.size.trans (List.length_replicate ..)⟩

theorem sendAckVector_rebuilds_three :
    ∃ v : AckVector, v.size_ = 3 ∧ ∀ (v' : AckVector) (o' : DccpOptions)
      (after : List (Byte × List Byte)) (p : DccpOptions),
      v.sendAckVector 1 300 ⟨[], 512⟩ = some (v', o') →
      (∀ x ∈ after, DccpAgent.Passes (fun _ _ => true) x) →
      p.options_ = o'.options_ ++ after.flatMap DccpOptions.encode →
      ∃ w : AckVector, p.parseOptions (DccpAgent.processOption (fun _ _ => true) false 300)
          ⟨20, none⟩ = some (⟨20, some w⟩, true) ∧ (∀ s, w.getState s = v.getState s) ∧
        w.seq_head_ = v.seq_head_ ∧ w.seq_tail_ = v.seq_tail_ := by
  obtain ⟨v, hv, -, -, hsize⟩ := exists_received (n := 3) (by decide) (by decide)
  exact ⟨v, hsize, (@Stores.sendAckVector_rebuilds_iff v _ hv (by decide) (fun _ _ => true) []
    ⟨[], 512⟩ rfl (List.forall_mem_nil _) 20 (by decide) (by decide) 1 300).mpr (.inl (hsize.trans_le (by decide)))⟩

/-- Of a vector of 257 bytes one is sent, as if it were all. -/
theorem sendAckVector_cuts_257 :
    ∃ (v v' w : AckVector) (o' : DccpOptions), v.size_ = 257 ∧
      v.sendAckVector 1 300 ⟨[], 512⟩ = some (v', o') ∧
      o'.parseOptions (DccpAgent.processOption (fun _ _ => true) false 300) ⟨20, none⟩ =
        some (⟨20, some w⟩, true) ∧
      v.getState 299 = some .recv ∧ w.getState 299 = none := by
  obtain ⟨v, hv, hhead, hhist, hsize⟩ := exists_received (n := 257) (by decide) (by decide)
  have hr : ¬ v.Refuses 1 300 ⟨[], 512⟩ := by
    rw [Refuses, hhead, hhist, hsize]
    simp
  have hsend := hv.sendAckVector_eq (by decide) hr
  rw [hsize] at hsend
  have htype : v.optionType = DccpOptions.ackVectorN0 ∨ v.optionType = DccpOptions.ackVectorN1 := by
    unfold optionType
    split_ifs
    · exact .inl rfl
    · exact .inr rfl
  obtain ⟨w, hparse, hw, hwhead⟩ := @DccpAgent.parseOptions_rebuilds (fun _ _ => true)
    [] [] v.optionType [0] ⟨DccpOptions.encode (v.optionType, [0]), 512⟩ 20 300
    (List.append_nil _).symm (List.forall_mem_nil _) (List.forall_mem_nil _) htype (by decide) (by decide) (by decide)
    (by decide) (by decide) (by decide)
  refine ⟨v, _, w, _, hsize, hsend, hparse, ?_, ?_⟩
  · rw [hv.getState_eq, hhead, if_pos (by decide), statesOf, expand_replicate,
      List.getElem?_replicate_of_lt (by decide)]
    rfl
  · rw [hw.getState_eq, hwhead]
    rfl

end AckVector

end Ns2
