import Ns2.Mcast.SrmState

/-! The messages received as a set of numbers: what the bit vector answers while it grows, whatever
the memory holds that it grows into. -/

namespace Ns2

namespace SRMinfo

inductive ReceivedCall
  | ifReceived (id : ℕ)
  | setReceived (id : ℕ)
  | resetReceived (id : ℕ)

def ReceivedCall.id : ReceivedCall → ℕ
  | .ifReceived id => id
  | .setReceived id => id
  | .resetReceived id => id

/-- Doubling the size until it is above `id` leaves the range of `int`. -/
def overflows (sp : SRMinfo) (id : ℕ) : Prop := sp.recvmax_ ≤ id ∧ 2 ^ 30 ≤ id

instance (sp : SRMinfo) (id : ℕ) : Decidable (sp.overflows id) := instDecidableAnd

section

variable (junk : SRMinfo → ℕ → BitVec 8)

def resetReceived (sp : SRMinfo) (id : ℤ) : Option (Bool × SRMinfo) :=
  (ifReceived junk sp id).map fun r =>
    let k := id.toNat
    let byte := r.2.received_.getD (k / 8) 0 &&& ~~~(1#8 <<< (k % 8))
    (r.1, { r.2 with received_ := r.2.received_.set (k / 8) byte })

/-- The output is the answer of `ifReceived`. -/
def perform (sp : SRMinfo) : ReceivedCall → Option (SRMinfo × Option Bool)
  | .ifReceived id => (ifReceived junk sp id).map fun r => (r.2, some r.1)
  | .setReceived id => (setReceived junk sp id).map fun r => (r.2, none)
  | .resetReceived id => (resetReceived junk sp id).map fun r => (r.2, none)

def call (sp : SRMinfo) (c : ReceivedCall) : Option (SRMinfo × Option Bool) :=
  if sp.overflows c.id then none else perform junk sp c

end

/-- A set of numbers. -/
def setCall (A : ℕ → Bool) : ReceivedCall → Option ((ℕ → Bool) × Option Bool)
  | .ifReceived id => some (A, some (A id))
  | .setReceived id => some (Function.update A id true, none)
  | .resetReceived id => some (Function.update A id false, none)

/-- How large the vector is, and which of its bits the object has written, as far as they are in it. -/
structure Extent where
  size : ℕ
  known : ℕ → Bool

namespace Extent

def start : Extent := ⟨0, fun _ => true⟩

/-- A growth copies the old bytes and clears as many behind them. -/
def reach (x : Extent) (id : ℕ) : Extent :=
  if id < x.size then x
  else
    let osize := max x.size BITVEC_SIZE_DEFAULT
    { size := grow osize id
      known := fun k => if k / 8 < osize then x.known k else decide (k / 8 < 2 * osize) }

def call (x : Extent) (c : ReceivedCall) : Option (Extent × Unit) :=
  let x := x.reach c.id
  match c with
  | .ifReceived _ => some (x, ())
  | .setReceived id => some ({ x with known := Function.update x.known id true }, ())
  | .resetReceived id => some ({ x with known := Function.update x.known id true }, ())

/-- The size stays in the range of `int`, and a bit that is asked for was written. -/
def Answers (x : Extent) (c : ReceivedCall) : Prop :=
  (c.id < x.size ∨ c.id < 2 ^ 30) ∧
    match c with
    | .ifReceived id => (x.reach id).known id = true
    | _ => True

end Extent

theorem le_grow (n id : ℕ) : n ≤ grow n id := by
  induction n using grow.induct id with
  | case1 n h ih =>
    rw [grow, if_pos h]
    omega
  | case2 n h => rw [grow, if_neg h]

theorem lt_grow {n : ℕ} (h : 0 < n) (id : ℕ) : id < grow n id := by
  induction n using grow.induct id with
  | case1 n hn ih =>
    rw [grow, if_pos hn]
    exact ih (by omega)
  | case2 n hn =>
    rw [grow, if_neg hn]
    omega

variable {junk : SRMinfo → ℕ → BitVec 8} {sp : SRMinfo} {A : ℕ → Bool} {x : Extent} {id : ℕ}

/-- An array that was born with all bits set. -/
def ones : SRMinfo → ℕ → BitVec 8 := fun _ _ => BitVec.allOnes 8

/-- The vector tells the set as far as it was written. -/
structure Tells (junk : SRMinfo → ℕ → BitVec 8) (sp : SRMinfo) (A : ℕ → Bool) (x : Extent) : Prop where
  size : x.size = sp.received_.length
  sized : sp.Sized
  fresh : x.size = 0 → ∀ k, x.known k = true
  lt : ∀ k, A k = true → k < x.size
  known : ∀ k, k / 8 < x.size → x.known k = true → sp.bit k = A k
  unknown : ∀ k, k / 8 < x.size → x.known k = false → A k = false ∧ (junk = ones → sp.bit k = true)

theorem tells_start (junk : SRMinfo → ℕ → BitVec 8) (sender repid scopeFlag : ℤ) :
    Tells junk (new sender repid scopeFlag) (fun _ => false) .start where
  size := rfl
  sized := .inl ⟨rfl, rfl⟩
  fresh _ _ := rfl
  lt _ h := absurd h Bool.false_ne_true
  known _ hk := absurd hk (Nat.not_lt_zero _)
  unknown _ hk := absurd hk (Nat.not_lt_zero _)

theorem Tells.congr {y : Extent} (h : Tells junk sp A x) (hs : y.size = x.size) (hpos : 0 < x.size)
    (hk : ∀ k, k / 8 < x.size → y.known k = x.known k) : Tells junk sp A y where
  size := hs.trans h.size
  sized := h.sized
  fresh hz := absurd (hs.symm.trans hz) hpos.ne'
  lt k hA := hs ▸ h.lt k hA
  known k hlt he := h.known k (hs ▸ hlt) ((hk k (hs ▸ hlt)).symm.trans he)
  unknown k hlt he := h.unknown k (hs ▸ hlt) ((hk k (hs ▸ hlt)).symm.trans he)

/-- The vector after the first allocation. -/
theorem Tells.allocate (h : Tells junk sp A x) :
    Tells junk (SRMinfo.allocate sp) A ⟨max x.size BITVEC_SIZE_DEFAULT, x.known⟩ := by
  rw [SRMinfo.allocate]
  rcases h.sized with ⟨hnil, hm⟩ | ⟨hlen, hm⟩
  · have hz : x.size = 0 := by rw [h.size, hnil, List.length_nil]
    have hA : ∀ k, A k = false := fun k => by
      by_contra hne
      exact absurd (h.lt k (Bool.eq_true_of_not_eq_false hne)) (by omega)
    rw [if_pos hnil, hz, Nat.zero_max]
    refine ⟨by simp, .inr ⟨by simp, by simp⟩, fun hne =>
      absurd (show BITVEC_SIZE_DEFAULT = 0 from hne) (by decide), fun k hk => ?_,
      fun k hk _ => ?_, fun k _ hu => ?_⟩
    · rw [hA] at hk
      cases hk
    · have hlt : k / 8 < BITVEC_SIZE_DEFAULT := hk
      rw [hA]
      simp [bit, hlt]
    · rw [h.fresh hz k] at hu
      cases hu
  · have hne : sp.received_ ≠ [] := List.ne_nil_of_length_pos (lt_of_lt_of_le (by decide) hlen)
    rw [if_neg hne, max_eq_left (h.size ▸ hlen)]
    exact h

/-- The vector after its growth. -/
theorem Tells.widen (h : Tells junk sp A x) (hx : BITVEC_SIZE_DEFAULT ≤ x.size) (hid : x.size ≤ id) :
    Tells junk (SRMinfo.widen junk sp id) A
      ⟨grow x.size id, fun k => if k / 8 < x.size then x.known k else decide (k / 8 < 2 * x.size)⟩ := by
  have hpos : 0 < x.size := lt_of_lt_of_le (by decide) hx
  have hm : sp.recvmax_ = x.size := by
    rcases h.sized with ⟨hnil, -⟩ | ⟨-, hm⟩
    · rw [h.size, hnil] at hpos
      exact absurd hpos (lt_irrefl 0)
    · rw [hm, h.size]
  have hle := le_grow x.size id
  rw [SRMinfo.widen, if_pos (by omega), ← h.size]
  have hbit : ∀ k, k / 8 < grow x.size id → SRMinfo.bit { sp with
      received_ := (List.range (grow x.size id)).map fun j =>
        if j < x.size then sp.received_.getD j 0 else if j < 2 * x.size then 0 else junk sp j
      recvmax_ := grow x.size id } k =
        if k / 8 < x.size then sp.bit k
        else if k / 8 < 2 * x.size then false else (junk sp (k / 8)).getLsbD (k % 8) := by
    intro k hk
    by_cases h1 : k / 8 < x.size
    · simp [bit, hk, h1]
    · by_cases h2 : k / 8 < 2 * x.size
      · simp [bit, hk, h1, h2]
      · simp [bit, hk, h1, h2]
  have hA : ∀ k, ¬ k / 8 < x.size → A k = false := fun k hk => by
    by_contra hne
    have := h.lt k (Bool.eq_true_of_not_eq_false hne)
    omega
  refine ⟨by simp, .inr ⟨by simp; omega, by simp⟩, fun hz => absurd hz (by dsimp only; omega),
    fun k hk => (h.lt k hk).trans_le hle, fun k hk hknown => ?_, fun k hk hun => ?_⟩
  · rw [hbit k hk]
    dsimp only at hknown
    split_ifs with h1 h2
    · rw [if_pos h1] at hknown
      exact h.known k h1 hknown
    · exact (hA k h1).symm
    · rw [if_neg h1] at hknown
      exact absurd (of_decide_eq_true hknown) h2
  · dsimp only at hun
    by_cases h1 : k / 8 < x.size
    · rw [if_pos h1] at hun
      refine ⟨(h.unknown k h1 hun).1, fun hj => ?_⟩
      rw [hbit k hk, if_pos h1]
      exact (h.unknown k h1 hun).2 hj
    · rw [if_neg h1] at hun
      refine ⟨hA k h1, fun hj => ?_⟩
      rw [hbit k hk, if_neg h1, if_neg (of_decide_eq_false hun), hj]
      change (BitVec.allOnes 8).getLsbD (k % 8) = true
      rw [BitVec.getLsbD_allOnes]
      exact decide_eq_true (Nat.mod_lt _ (by decide))

/-- `ifReceived`, on the vector as far as it then reaches. -/
theorem Tells.ifReceived (h : Tells junk sp A x) (id : ℕ) :
    ∃ sq, SRMinfo.ifReceived junk sp id = some (sq.bit id, sq) ∧ Tells junk sq A (x.reach id) ∧
      id < (x.reach id).size := by
  rw [SRMinfo.ifReceived, if_pos (Int.natCast_nonneg id), Int.toNat_natCast]
  refine ⟨_, rfl, ?_⟩
  rw [Extent.reach]
  by_cases hlt : id < x.size
  · have hm : ¬ (id : ℤ) ≥ sp.recvmax_ := by
      have := h.size
      rcases h.sized with ⟨hnil, -⟩ | ⟨-, hm⟩
      · rw [hnil, List.length_nil] at this
        omega
      · omega
    rw [if_pos hlt, if_neg hm]
    exact ⟨h, hlt⟩
  · have hm : (id : ℤ) ≥ sp.recvmax_ := by
      have := h.size
      rcases h.sized with ⟨-, hm⟩ | ⟨-, hm⟩ <;> omega
    have halloc := h.allocate
    have hle : BITVEC_SIZE_DEFAULT ≤ max x.size BITVEC_SIZE_DEFAULT := le_max_right _ _
    have hpos : 0 < max x.size BITVEC_SIZE_DEFAULT := lt_of_lt_of_le (by decide) hle
    rw [if_neg hlt, if_pos hm, resize]
    refine ⟨?_, lt_grow hpos id⟩
    by_cases hid : max x.size BITVEC_SIZE_DEFAULT ≤ id
    · exact halloc.widen hle hid
    · have hsame : SRMinfo.widen junk (SRMinfo.allocate sp) id = SRMinfo.allocate sp := by
        rw [SRMinfo.widen, if_neg]
        have hsize := halloc.size
        dsimp only at hsize
        rcases halloc.sized with ⟨hnil, -⟩ | ⟨-, hm'⟩
        · rw [hnil, List.length_nil] at hsize
          omega
        · omega
      rw [hsame]
      exact halloc.congr (grow_of_lt (not_le.mp hid)) hpos fun k hk => if_pos hk

theorem bit_set {n : ℕ} (hn : n / 8 < sp.received_.length) (b : BitVec 8) (k : ℕ) :
    SRMinfo.bit { sp with received_ := sp.received_.set (n / 8) b } k =
      if k / 8 = n / 8 then b.getLsbD (k % 8) else sp.bit k := by
  by_cases hk : k / 8 = n / 8
  · simp [bit, hk, hn]
  · simp [bit, hk, List.getElem?_set_ne (Ne.symm hk)]

theorem getLsbD_mask (k n : ℕ) : (1#8 <<< (n % 8)).getLsbD (k % 8) = decide (k % 8 = n % 8) := by
  have hn : n % 8 < 8 := Nat.mod_lt _ (by decide)
  have hk : k % 8 < 8 := Nat.mod_lt _ (by decide)
  generalize n % 8 = i at *
  generalize k % 8 = j at *
  interval_cases i <;> interval_cases j <;> rfl

/-- One bit is written. -/
theorem Tells.write {n : ℕ} {b : BitVec 8} {v : Bool} (h : Tells junk sp A x) (hn : n < x.size)
    (hb : ∀ j < 8, b.getLsbD j = if j = n % 8 then v else (sp.received_.getD (n / 8) 0).getLsbD j) :
    Tells junk { sp with received_ := sp.received_.set (n / 8) b } (Function.update A n v)
      { x with known := Function.update x.known n true } := by
  have hlen : n / 8 < sp.received_.length := by
    rw [← h.size]
    omega
  have hbit : ∀ k, SRMinfo.bit { sp with received_ := sp.received_.set (n / 8) b } k =
      if k = n then v else sp.bit k := fun k => by
    rw [bit_set hlen]
    by_cases hbyte : k / 8 = n / 8
    · rw [if_pos hbyte, hb _ (Nat.mod_lt _ (by decide)), bit, hbyte]
      by_cases hk : k = n
      · rw [if_pos (by rw [hk]), if_pos hk]
      · rw [if_neg (by omega), if_neg hk]
    · rw [if_neg hbyte, if_neg (fun hk => hbyte (by rw [hk]))]
  refine ⟨by simp [h.size], ?_, fun hz => absurd hz (by dsimp only; omega), fun k hk => ?_,
    fun k hk hknown => ?_, fun k hk hun => ?_⟩
  · rcases h.sized with ⟨hnil, -⟩ | ⟨hle, hm⟩
    · rw [hnil] at hlen
      exact absurd hlen (Nat.not_lt_zero _)
    · exact .inr ⟨by simpa using hle, by simpa using hm⟩
  · by_cases hkn : k = n
    · rw [hkn]
      exact hn
    · rw [Function.update_of_ne hkn] at hk
      exact h.lt k hk
  · rw [hbit]
    by_cases hkn : k = n
    · rw [if_pos hkn, hkn, Function.update_self]
    · rw [if_neg hkn, Function.update_of_ne hkn]
      dsimp only at hknown
      rw [Function.update_of_ne hkn] at hknown
      exact h.known k hk hknown
  · dsimp only at hun
    have hkn : k ≠ n := by
      rintro rfl
      rw [Function.update_self] at hun
      cases hun
    rw [Function.update_of_ne hkn] at hun
    rw [hbit, if_neg hkn, Function.update_of_ne hkn]
    exact h.unknown k hk hun

theorem Tells.setReceived (h : Tells junk sp A x) (id : ℕ) :
    ∃ b sq, SRMinfo.setReceived junk sp id = some (b, sq) ∧
      Tells junk sq (Function.update A id true)
        { x.reach id with known := Function.update (x.reach id).known id true } := by
  obtain ⟨sq, hq, htell, hlt⟩ := h.ifReceived id
  refine ⟨_, _, by rw [SRMinfo.setReceived, hq]; rfl, htell.write hlt fun j hj => ?_⟩
  dsimp only
  rw [BitVec.getLsbD_or, Int.toNat_natCast]
  have hmask := getLsbD_mask j id
  rw [Nat.mod_eq_of_lt hj] at hmask
  rw [hmask]
  split_ifs with hj'
  · simp [hj']
  · simp [hj']

theorem Tells.resetReceived (h : Tells junk sp A x) (id : ℕ) :
    ∃ b sq, SRMinfo.resetReceived junk sp id = some (b, sq) ∧
      Tells junk sq (Function.update A id false)
        { x.reach id with known := Function.update (x.reach id).known id true } := by
  obtain ⟨sq, hq, htell, hlt⟩ := h.ifReceived id
  refine ⟨_, _, by rw [SRMinfo.resetReceived, hq]; rfl, htell.write hlt fun j hj => ?_⟩
  dsimp only
  rw [BitVec.getLsbD_and, BitVec.getLsbD_not, Int.toNat_natCast]
  have hmask := getLsbD_mask j id
  rw [Nat.mod_eq_of_lt hj] at hmask
  rw [hmask]
  split_ifs with hj'
  · simp [hj']
  · simp [hj', hj]

theorem Tells.overflows_iff (h : Tells junk sp A x) (id : ℕ) :
    sp.overflows id ↔ ¬ (id < x.size ∨ id < 2 ^ 30) := by
  have hm : sp.recvmax_ ≤ id ↔ ¬ id < x.size := by
    have hsize := h.size
    rcases h.sized with ⟨hnil, hm⟩ | ⟨-, hm⟩
    · rw [hnil, List.length_nil] at hsize
      omega
    · omega
  rw [overflows, hm, not_or, not_lt (a := id) (b := 2 ^ 30)]

/-- One call and what the set says to it: they agree if the bit that is asked for was written, and may
differ if it was not. -/
theorem Tells.call (h : Tells junk sp A x) (c : ReceivedCall) (hc : c.id < x.size ∨ c.id < 2 ^ 30) :
    ∃ sq o A' o' x', SRMinfo.call junk sp c = some (sq, o) ∧ setCall A c = some (A', o') ∧
      x.call c = some (x', ()) ∧ Tells junk sq A' x' ∧ (x.Answers c → o = o') ∧
      (junk = ones → ¬ x.Answers c → o ≠ o') := by
  have hover : ¬ sp.overflows c.id := fun ho => (h.overflows_iff c.id).mp ho hc
  rw [SRMinfo.call, if_neg hover]
  cases c with
  | ifReceived id =>
    obtain ⟨sq, hq, htell, hlt⟩ := h.ifReceived id
    refine ⟨sq, some (sq.bit id), A, some (A id), x.reach id, ?_, rfl, rfl, htell, fun ha => ?_,
      fun hj ha => ?_⟩
    · rw [perform, hq, Option.map_some]
    · rw [htell.known id (by omega) ha.2]
    · have hun : (x.reach id).known id = false := Bool.eq_false_of_not_eq_true fun hk => ha ⟨hc, hk⟩
      obtain ⟨hA, hbit⟩ := htell.unknown id (by omega) hun
      rw [hA, hbit hj]
      decide
  | setReceived id =>
    obtain ⟨b, sq, hq, htell⟩ := h.setReceived id
    refine ⟨sq, none, _, none, _, ?_, rfl, rfl, htell, fun _ => rfl, fun _ ha => absurd ⟨hc, trivial⟩ ha⟩
    rw [perform, hq, Option.map_some]
  | resetReceived id =>
    obtain ⟨b, sq, hq, htell⟩ := h.resetReceived id
    refine ⟨sq, none, _, none, _, ?_, rfl, rfl, htell, fun _ => rfl, fun _ ha => absurd ⟨hc, trivial⟩ ha⟩
    rw [perform, hq, Option.map_some]

/-- The answers in a run, if it is completed. -/
def answers {σ : Type} (step : σ → ReceivedCall → Option (σ × Option Bool)) (s : σ)
    (cs : List ReceivedCall) : Option (List (Option Bool)) := (Machine.run step s cs).map Prod.snd

theorem answers_cons {σ : Type} {step : σ → ReceivedCall → Option (σ × Option Bool)} {s t : σ}
    {c : ReceivedCall} {o : Option Bool} (h : step s c = some (t, o)) (cs : List ReceivedCall) :
    answers step s (c :: cs) = (answers step t cs).map (o :: ·) := by
  rw [answers, Machine.run_cons_some h, Option.map_map, answers, Option.map_map]
  rfl

theorem answers_set (A : ℕ → Bool) (cs : List ReceivedCall) : ∃ os, answers setCall A cs = some os := by
  induction cs generalizing A with
  | nil => exact ⟨[], rfl⟩
  | cons c cs ih =>
    obtain ⟨A', o, hs⟩ : ∃ A' o, setCall A c = some (A', o) := by cases c <;> exact ⟨_, _, rfl⟩
    obtain ⟨os, hos⟩ := ih A'
    exact ⟨o :: os, by rw [answers_cons hs, hos, Option.map_some]⟩

theorem Tells.answers (h : Tells junk sp A x) {cs : List ReceivedCall}
    (hok : Machine.Admits Extent.call Extent.Answers x cs) :
    SRMinfo.answers (SRMinfo.call junk) sp cs = SRMinfo.answers setCall A cs := by
  induction cs generalizing sp A x with
  | nil => rfl
  | cons c cs ih =>
    obtain ⟨sq, o, A', o', x', hs, hA, hx, htell, hsame, -⟩ := h.call c hok.1.1
    rw [answers_cons hs, answers_cons hA, hsame hok.1, ih htell (hok.2 x' () hx)]

theorem Tells.admits (h : Tells ones sp A x) {cs : List ReceivedCall}
    (he : SRMinfo.answers (SRMinfo.call ones) sp cs = SRMinfo.answers setCall A cs) :
    Machine.Admits Extent.call Extent.Answers x cs := by
  induction cs generalizing sp A x with
  | nil => trivial
  | cons c cs ih =>
    by_cases hc : c.id < x.size ∨ c.id < 2 ^ 30
    · obtain ⟨sq, o, A', o', x', hs, hA, hx, htell, -, hdiff⟩ := h.call c hc
      obtain ⟨os, hos⟩ := answers_set A' cs
      rw [answers_cons hs, answers_cons hA, hos, Option.map_some] at he
      obtain ⟨os', hos', hcons⟩ := Option.map_eq_some_iff.mp he
      obtain ⟨ho, rfl⟩ := List.cons.inj hcons
      refine Machine.admits_cons ?_ hx (ih htell (hos'.trans hos.symm))
      by_contra ha
      exact hdiff rfl ha ho
    · -- the sizes overflow, and the call does not return
      obtain ⟨os, hos⟩ := answers_set A (c :: cs)
      have hnone : SRMinfo.call ones sp c = none := by
        rw [SRMinfo.call, if_pos ((h.overflows_iff c.id).mpr hc)]
      rw [hos, SRMinfo.answers, Machine.run_cons_none hnone] at he
      cases he

/-- A new `SRMinfo` answers like a set, whatever the memory holds, in exactly the runs that never ask
for a bit which no growth has cleared. -/
theorem run_set_iff (sender repid scopeFlag : ℤ) (cs : List ReceivedCall) :
    (∀ junk, answers (call junk) (new sender repid scopeFlag) cs =
        answers setCall (fun _ => false) cs) ↔
      Machine.Admits Extent.call Extent.Answers .start cs :=
  ⟨fun h => (tells_start ones sender repid scopeFlag).admits (h ones),
    fun h junk => (tells_start junk sender repid scopeFlag).answers h⟩

/-- The first message asked for is one that was never received. -/
theorem received_never_set : ∃ sp, call ones (new 0 0 0) (.ifReceived 4096) = some (sp, some true) ∧
    answers setCall (fun _ => false) [.ifReceived 4096] = some [some false] := by
  obtain ⟨sq, hq, htell, hlt⟩ := (tells_start ones 0 0 0).ifReceived 4096
  have hun : (Extent.start.reach 4096).known 4096 = false := rfl
  have hbit := (htell.unknown 4096 (by omega) hun).2 rfl
  refine ⟨sq, ?_, rfl⟩
  rw [call, if_neg (by decide), perform, ← hbit]
  exact congrArg (Option.map fun r => (r.2, some r.1)) hq

end SRMinfo

end Ns2
