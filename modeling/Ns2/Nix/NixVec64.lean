import Mathlib

/-! The vector of neighbour indices where an `unsigned long` has 64 bits and `NIX_BPW` is still 32.
Numbers of bits are unbounded. -/

namespace Ns2

/-- `m_pNV` as the list of the words, a single one where the pointer holds it. -/
structure NixVec64 where
  m_pNV : List (BitVec 64)
  m_used : ℕ
  m_alth : ℕ

namespace NixVec64

def init : NixVec64 := ⟨[0], 0, 0⟩

def lth (nv : NixVec64) : ℕ := if nv.m_alth = 0 then 32 else ((nv.m_alth - 1) / 32 + 1) * 32

def reset (nv : NixVec64) : NixVec64 := { nv with m_used := 0 }

/-- `m_pNV[i] |= newbits`; `none` is an access outside of the array. -/
def orWord (words : List (BitVec 64)) (i : ℕ) (newbits : BitVec 64) : Option (List (BitVec 64)) :=
  words[i]?.map fun w => words.set i (w ||| newbits)

/-- The words of `Add`. The terms of the shifts stand in an order in which no part is negative. -/
def store (nv : NixVec64) (first : BitVec 64) (second : ℕ) : Option (List (BitVec 64)) :=
  let newused := nv.m_used + second
  if newused > nv.lth then
    let newlth := nv.lth + 32
    let pNew := nv.m_pNV ++ [0]
    if nv.m_used = nv.lth then
      orWord pNew (nv.m_used / 32) (first <<< (32 + (newlth - 32) - nv.m_used - second))
    else
      let left := nv.lth - nv.m_used
      (orWord pNew (nv.m_used / 32) (first >>> (second - left))).bind fun words =>
        orWord words (nv.m_used / 32 + 1) (first <<< (32 - (second - left)))
  else orWord nv.m_pNV (nv.m_used / 32) (first <<< (32 + (nv.lth - 32) - nv.m_used - second))

def add (nv : NixVec64) (first : BitVec 64) (second : ℕ) : Option NixVec64 :=
  if second = 0 then some nv
  else
    (nv.store first second).map fun words =>
      ⟨words, nv.m_used + second, max nv.m_alth (nv.m_used + second)⟩

/-- The constant `0x80000000` is a positive `long`, and its sign is not shifted in. -/
def extract (nv : NixVec64) (n : ℕ) : Option (BitVec 64 × NixVec64) :=
  let used := nv.m_used
  let word := used / 32
  let bit := used - word * 32
  let m : BitVec 64 := 0x80000000
  if used + n > nv.m_alth then some (0xffffffff, nv)
  else if bit + n ≤ 32 then
    nv.m_pNV[word]?.map fun w =>
      let u := (m.sshiftRight (n - 1)) >>> bit
      ((w &&& u) >>> (32 - bit - n), { nv with m_used := used + n })
  else
    nv.m_pNV[word]?.bind fun w =>
      let t := 32 - bit
      let u := (m.sshiftRight (t - 1)) >>> bit
      let w := w &&& u
      let t := n - t
      nv.m_pNV[word + 1]?.map fun (next : BitVec 64) =>
        (w <<< t ||| next >>> (32 - t), { nv with m_used := used + n })

/-- A word of which `memcpy` writes the first `bytes` bytes, on a little-endian machine. -/
def copyWord (bytes : ℕ) (old junk : BitVec 64) : BitVec 64 :=
  let mask := BitVec.ofNat 64 (2 ^ (8 * bytes) - 1)
  old &&& mask ||| junk &&& ~~~mask

/-- The copy constructor, when `junk` is what stands in the new array. -/
def copy (junk : ℕ → BitVec 64) (p : NixVec64) : NixVec64 where
  m_pNV :=
    if p.lth > 32 then
      (List.range (p.lth / 32)).map fun i =>
        copyWord (min 8 (p.lth / 8 - 8 * i)) (p.m_pNV.getD i 0) (junk i)
    else p.m_pNV
  m_used := 0
  m_alth := p.m_alth

def addAll (nv : NixVec64) (ps : List (BitVec 64 × ℕ)) : Option NixVec64 :=
  ps.foldlM (fun nv p => nv.add p.1 p.2) nv

def extractAll (nv : NixVec64) : List ℕ → Option (List (BitVec 64))
  | [] => some []
  | n :: ns => (nv.extract n).bind fun r => (r.2.extractAll ns).map (r.1 :: ·)

/-- The values are extracted as they were added. -/
def Returns (nv : NixVec64) (ps : List (BitVec 64 × ℕ)) : Prop :=
  nv.extractAll (ps.map Prod.snd) = some (ps.map Prod.fst)

instance (nv : NixVec64) (ps : List (BitVec 64 × ℕ)) : Decidable (Returns nv ps) :=
  inferInstanceAs (Decidable (_ = _))

example : (init.addAll [(1, 1), (0, 31), (5, 3)]).map (·.reset.extractAll [1, 31, 3]) =
    some (some [1, 0, 1]) := by decide

/-! ### The bits that `Add` writes -/

/-- A value of `n` bits at `u` as far as `Extract` reads it: its lowest bit, or, where it goes on
in the next word, the bits of the next word and the lowest bit before them. -/
structure Stands (ws : List (BitVec 64)) (u n : ℕ) (v : BitVec 64) : Prop where
  within : u % 32 + n ≤ 32 → (ws.getD (u / 32) 0).getLsbD (32 - u % 32 - n) = v.getLsbD 0
  first : 32 < u % 32 + n → (ws.getD (u / 32) 0).getLsbD 0 = v.getLsbD (u % 32 + n - 32)
  rest : 32 < u % 32 + n → ∀ q, (ws.getD (u / 32 + 1) 0).getLsbD (64 - u % 32 - n + q) = v.getLsbD q

/-- The bits before `a` are the same, with those of the high halves. -/
def Agrees (a : ℕ) (ws ws' : List (BitVec 64)) : Prop :=
  ∀ i p, 32 * (i + 1) ≤ a + p → (ws'.getD i 0).getLsbD p = (ws.getD i 0).getLsbD p

def Blank (a : ℕ) (ws : List (BitVec 64)) : Prop :=
  ∀ i p, a + p < 32 * (i + 1) → (ws.getD i 0).getLsbD p = false

/-- A vector that is only added to. -/
structure Packed (nv : NixVec64) : Prop where
  used : nv.m_used = nv.m_alth
  length : nv.m_pNV.length = (nv.m_alth - 1) / 32 + 1
  blank : Blank nv.m_alth nv.m_pNV

theorem Stands.agrees {ws ws' : List (BitVec 64)} {a u n : ℕ} {v : BitVec 64} (h : Stands ws u n v)
    (hend : u + n ≤ a) (ha : Agrees a ws ws') : Stands ws' u n v where
  within hin := by rw [ha _ _ (by omega), h.within hin]
  first hover := by rw [ha _ _ (by omega), h.first hover]
  rest hover q := by rw [ha _ _ (by omega), h.rest hover q]

theorem Agrees.trans {ws ws' ws'' : List (BitVec 64)} {a b : ℕ} (h : Agrees a ws ws')
    (h' : Agrees b ws' ws'') (hab : a ≤ b) : Agrees a ws ws'' :=
  fun i p hp => (h' i p (by omega)).trans (h i p hp)

theorem getLsbD_of_lt {v : BitVec 64} {n q : ℕ} (hv : v.toNat < 2 ^ n) (hq : n ≤ q) :
    v.getLsbD q = false :=
  Nat.testBit_lt_two_pow (hv.trans_le (Nat.pow_le_pow_right (by decide) hq))

theorem getD_append_zero (ws : List (BitVec 64)) (i : ℕ) : (ws ++ [0]).getD i 0 = ws.getD i 0 := by
  rcases Nat.lt_or_ge i ws.length with h | h
  · exact List.getD_append _ _ _ _ h
  · rw [List.getD_append_right _ _ _ _ h, List.getD_eq_default ws _ h]
    cases hi : i - ws.length with
    | zero => rfl
    | succ k => rfl

theorem orWord_spec {ws : List (BitVec 64)} {j : ℕ} (hj : j < ws.length) (x : BitVec 64) :
    ∃ ws', orWord ws j x = some ws' ∧ ws'.length = ws.length ∧ ∀ i p,
      (ws'.getD i 0).getLsbD p = ((ws.getD i 0).getLsbD p || (decide (i = j) && x.getLsbD p)) := by
  refine ⟨ws.set j (ws[j] ||| x), by simp [orWord, hj], by simp, fun i p => ?_⟩
  by_cases hi : i = j
  · subst hi
    simp [List.getD_eq_getElem?_getD, hj]
  · simp [List.getD_eq_getElem?_getD, hi, Ne.symm hi]

section Write

variable {ws ws' : List (BitVec 64)} {a n : ℕ} {v : BitVec 64}

/-- A value that ends within the word. -/
theorem write_within (hb : Blank a ws) (hv : v.toNat < 2 ^ n) (hpos : 1 ≤ n) (hin : a % 32 + n ≤ 32)
    (hws : ∀ i p, (ws'.getD i 0).getLsbD p = ((ws.getD i 0).getLsbD p ||
      (decide (i = a / 32) && (v <<< (32 - a % 32 - n)).getLsbD p))) :
    Agrees a ws ws' ∧ Blank (a + n) ws' ∧ Stands ws' a n v := by
  refine ⟨fun i p hp => ?_, fun i p hp => ?_, ⟨fun _ => ?_, by omega, by omega⟩⟩
  · rw [hws, BitVec.getLsbD_shiftLeft]
    by_cases hi : i = a / 32
    · rw [getLsbD_of_lt hv (show n ≤ p - (32 - a % 32 - n) by omega)]
      simp
    · simp [hi]
  · rw [hws, BitVec.getLsbD_shiftLeft, hb i p (by omega)]
    by_cases hi : i = a / 32
    · have hlow : p < 32 - a % 32 - n := by omega
      simp [hlow]
    · simp [hi]
  · have hlow : 32 - a % 32 - n < 64 := by omega
    rw [hws, BitVec.getLsbD_shiftLeft, hb _ _ (by omega)]
    simp [hlow]

/-- A value that goes on in the next word. Its high bits are written there once more, above the
32 bits that are in use. -/
theorem write_over (hb : Blank a ws) (hlen : ws.length ≤ a / 32 + 1) (hv : v.toNat < 2 ^ n)
    (hle : n ≤ 31) (hover : 32 < a % 32 + n)
    (hws : ∀ i p, (ws'.getD i 0).getLsbD p = ((ws.getD i 0).getLsbD p ||
      (decide (i = a / 32) && (v >>> (a % 32 + n - 32)).getLsbD p) ||
      (decide (i = a / 32 + 1) && (v <<< (64 - a % 32 - n)).getLsbD p))) :
    Agrees a ws ws' ∧ Blank (a + n) ws' ∧ Stands ws' a n v := by
  refine ⟨fun i p hp => ?_, fun i p hp => ?_, ⟨by omega, fun _ => ?_, fun _ q => ?_⟩⟩
  · rw [hws, BitVec.getLsbD_shiftLeft, BitVec.getLsbD_ushiftRight]
    by_cases hi : i = a / 32
    · rw [getLsbD_of_lt hv (show n ≤ a % 32 + n - 32 + p by omega)]
      simp [hi]
    · by_cases hi' : i = a / 32 + 1
      · rw [getLsbD_of_lt hv (show n ≤ p - (64 - a % 32 - n) by omega)]
        simp [hi']
      · simp [hi, hi']
  · rw [hws, BitVec.getLsbD_shiftLeft, hb i p (by omega)]
    have hi : i ≠ a / 32 := by omega
    by_cases hi' : i = a / 32 + 1
    · have hlow : p < 64 - a % 32 - n := by omega
      simp [hi, hlow]
    · simp [hi, hi']
  · rw [hws, BitVec.getLsbD_ushiftRight, hb _ _ (by omega)]
    simp
  · rw [hws, BitVec.getLsbD_shiftLeft, List.getD_eq_default ws _ hlen]
    by_cases hq : 64 - a % 32 - n + q < 64
    · have hno : ¬ 64 - a % 32 - n + q < 64 - a % 32 - n := by omega
      simp [hq, hno]
    · rw [getLsbD_of_lt hv (show n ≤ q by omega)]
      simp [hq]

end Write

theorem Packed.lth {nv : NixVec64} (h : Packed nv) : nv.lth = 32 * nv.m_pNV.length := by
  rw [h.length, NixVec64.lth]
  split_ifs with h0
  · rw [h0]
  · omega

theorem store_spec {nv : NixVec64} (h : Packed nv) {v : BitVec 64} {n : ℕ} (hpos : 1 ≤ n)
    (hle : n ≤ 31) (hv : v.toNat < 2 ^ n) :
    ∃ ws, nv.store v n = some ws ∧ ws.length = (nv.m_alth + n - 1) / 32 + 1 ∧
      Agrees nv.m_alth nv.m_pNV ws ∧ Blank (nv.m_alth + n) ws ∧ Stands ws nv.m_alth n v := by
  have hlth := h.lth
  have hlen := h.length
  unfold store
  dsimp only
  rw [h.used, hlth]
  generalize hk : nv.m_pNV.length = k at *
  by_cases hroom : nv.m_alth + n > 32 * k
  · rw [if_pos hroom]
    by_cases hfull : nv.m_alth = 32 * k
    · obtain ⟨ws, h1, h2, h3⟩ := @orWord_spec (nv.m_pNV ++ [0]) (nv.m_alth / 32) (by simp; omega)
        (v <<< (32 - nv.m_alth % 32 - n))
      rw [if_pos hfull,
        show 32 + (32 * k + 32 - 32) - nv.m_alth - n = 32 - nv.m_alth % 32 - n by omega]
      refine ⟨ws, h1, by rw [h2]; simp; omega,
        write_within h.blank hv hpos (by omega) fun i p => ?_⟩
      rw [h3, getD_append_zero]
    · obtain ⟨ws, h1, h2, h3⟩ := @orWord_spec (nv.m_pNV ++ [0]) (nv.m_alth / 32) (by simp; omega)
        (v >>> (nv.m_alth % 32 + n - 32))
      obtain ⟨ws', h4, h5, h6⟩ := @orWord_spec ws (nv.m_alth / 32 + 1) (by rw [h2]; simp; omega)
        (v <<< (64 - nv.m_alth % 32 - n))
      rw [if_neg hfull, show n - (32 * k - nv.m_alth) = nv.m_alth % 32 + n - 32 by omega, h1,
        Option.bind_some, show 32 - (nv.m_alth % 32 + n - 32) = 64 - nv.m_alth % 32 - n by omega]
      refine ⟨ws', h4, by rw [h5, h2]; simp; omega,
        write_over h.blank (by omega) hv hle (by omega) fun i p => ?_⟩
      rw [h6, h3, getD_append_zero]
  · obtain ⟨ws, h1, h2, h3⟩ := @orWord_spec nv.m_pNV (nv.m_alth / 32) (by omega)
      (v <<< (32 - nv.m_alth % 32 - n))
    rw [if_neg hroom, show 32 + (32 * k - 32) - nv.m_alth - n = 32 - nv.m_alth % 32 - n by omega]
    exact ⟨ws, h1, by omega, write_within h.blank hv hpos (by omega) h3⟩

theorem add_spec {nv : NixVec64} (h : Packed nv) {v : BitVec 64} {n : ℕ} (hpos : 1 ≤ n)
    (hle : n ≤ 31) (hv : v.toNat < 2 ^ n) :
    ∃ nv', nv.add v n = some nv' ∧ Packed nv' ∧ nv'.m_alth = nv.m_alth + n ∧
      Agrees nv.m_alth nv.m_pNV nv'.m_pNV ∧ Stands nv'.m_pNV nv.m_alth n v := by
  obtain ⟨ws, h1, h2, h3, h4, h5⟩ := store_spec h hpos hle hv
  have hmax : max nv.m_alth (nv.m_alth + n) = nv.m_alth + n := max_eq_right (Nat.le_add_right _ _)
  have hne : n ≠ 0 := by omega
  refine ⟨⟨ws, nv.m_alth + n, nv.m_alth + n⟩, ?_, ⟨rfl, h2, h4⟩, rfl, h3, h5⟩
  rw [add, if_neg hne, h1, Option.map_some, h.used, hmax]

/-- Every value of the list stands where the ones before it end. -/
def StandAll (ws : List (BitVec 64)) : ℕ → List (BitVec 64 × ℕ) → Prop
  | _, [] => True
  | u, p :: ps => Stands ws u p.2 p.1 ∧ StandAll ws (u + p.2) ps

/-- The width is between 1 and 31, and the value has it. -/
def Sized (p : BitVec 64 × ℕ) : Prop := 1 ≤ p.2 ∧ p.2 ≤ 31 ∧ p.1.toNat < 2 ^ p.2

def total (ps : List (BitVec 64 × ℕ)) : ℕ := (ps.map Prod.snd).sum

theorem addAll_spec {ps : List (BitVec 64 × ℕ)} (hps : ∀ p ∈ ps, Sized p) {nv : NixVec64}
    (h : Packed nv) : ∃ nv', nv.addAll ps = some nv' ∧ Packed nv' ∧
      nv'.m_alth = nv.m_alth + total ps ∧ Agrees nv.m_alth nv.m_pNV nv'.m_pNV ∧
      StandAll nv'.m_pNV nv.m_alth ps := by
  induction ps generalizing nv with
  | nil => exact ⟨nv, rfl, h, rfl, fun _ _ _ => rfl, trivial⟩
  | cons p ps ih =>
    obtain ⟨hpos, hle, hv⟩ := hps p (List.mem_cons_self ..)
    obtain ⟨nv₁, h1, h2, h3, h4, h5⟩ := add_spec h hpos hle hv
    obtain ⟨nv₂, h6, h7, h8, h9, h10⟩ := ih (fun q hq => hps q (List.mem_cons_of_mem p hq)) h2
    rw [h3] at h8 h9 h10
    refine ⟨nv₂, ?_, h7, ?_, h4.trans h9 (Nat.le_add_right _ _), h5.agrees le_rfl h9, h10⟩
    · rw [addAll, List.foldlM_cons, h1]
      exact h6
    · rw [h8, total, total, List.map_cons, List.sum_cons, Nat.add_assoc]

theorem packed_init : Packed init where
  used := rfl
  length := rfl
  blank i p _ := by
    cases i <;> simp [init]

/-! ### The bits that `Extract` reads -/

/-- The mask of `n` bits has a single one. -/
def taken (ws : List (BitVec 64)) (u n : ℕ) : BitVec 64 :=
  if u % 32 + n ≤ 32 then
    (ws.getD (u / 32) 0 &&& 1#64 <<< (32 - u % 32 - n)) >>> (32 - u % 32 - n)
  else
    (ws.getD (u / 32) 0 &&& 1) <<< (u % 32 + n - 32) |||
      ws.getD (u / 32 + 1) 0 >>> (64 - u % 32 - n)

def takenAll (ws : List (BitVec 64)) : ℕ → List ℕ → List (BitVec 64)
  | _, [] => []
  | u, n :: ns => taken ws u n :: takenAll ws (u + n) ns

theorem mask_eq {s b : ℕ} (h : s + b ≤ 31) :
    ((0x80000000 : BitVec 64).sshiftRight s) >>> b = 1#64 <<< (31 - s - b) := by
  have hm : (0x80000000 : BitVec 64) = 1#64 <<< 31 := by decide
  have hmsb : (0x80000000 : BitVec 64).msb = false := by decide
  rw [BitVec.sshiftRight_eq_of_msb_false hmsb, hm]
  apply BitVec.eq_of_getLsbD_eq
  intro q hq
  simp only [BitVec.getLsbD_ushiftRight, BitVec.getLsbD_shiftLeft, BitVec.getLsbD_one]
  by_cases hs : s + (b + q) = 31
  · have he : 31 - s - b = q := by omega
    simp [hs, he, hq]
  · by_cases hlow : s + (b + q) < 31
    · have hlow' : q < 31 - s - b := by omega
      simp [hlow, hlow']
    · have h1 : ¬ s + (b + q) - 31 = 0 := by omega
      have h2 : ¬ q - (31 - s - b) = 0 := by omega
      simp [h1, h2]

theorem extract_eq {nv : NixVec64} {n : ℕ} (hpos : 1 ≤ n) (hle : n ≤ 31)
    (hend : nv.m_used + n ≤ nv.m_alth) (hlen : (nv.m_alth - 1) / 32 + 1 ≤ nv.m_pNV.length) :
    nv.extract n = some (taken nv.m_pNV nv.m_used n, { nv with m_used := nv.m_used + n }) := by
  have hbit : nv.m_used - nv.m_used / 32 * 32 = nv.m_used % 32 := by omega
  have hin : nv.m_used / 32 < nv.m_pNV.length := by omega
  have hmore : ¬ nv.m_used + n > nv.m_alth := by omega
  unfold extract taken
  dsimp only
  rw [hbit, if_neg hmore, List.getElem?_eq_getElem hin, List.getD_eq_getElem _ _ hin]
  by_cases hone : nv.m_used % 32 + n ≤ 32
  · rw [if_pos hone, if_pos hone, mask_eq (by omega), Option.map_some,
      show 31 - (n - 1) - nv.m_used % 32 = 32 - nv.m_used % 32 - n by omega]
  · have hin' : nv.m_used / 32 + 1 < nv.m_pNV.length := by omega
    rw [if_neg hone, if_neg hone, mask_eq (by omega), Option.bind_some,
      List.getElem?_eq_getElem hin', List.getD_eq_getElem _ _ hin', Option.map_some,
      show 31 - (32 - nv.m_used % 32 - 1) - nv.m_used % 32 = 0 by omega,
      show n - (32 - nv.m_used % 32) = nv.m_used % 32 + n - 32 by omega,
      show 32 - (nv.m_used % 32 + n - 32) = 64 - nv.m_used % 32 - n by omega]
    rfl

theorem extractAll_eq {ns : List ℕ} (hns : ∀ n ∈ ns, 1 ≤ n ∧ n ≤ 31) {nv : NixVec64}
    (hend : nv.m_used + ns.sum ≤ nv.m_alth)
    (hlen : (nv.m_alth - 1) / 32 + 1 ≤ nv.m_pNV.length) :
    nv.extractAll ns = some (takenAll nv.m_pNV nv.m_used ns) := by
  induction ns generalizing nv with
  | nil => rfl
  | cons n ns ih =>
    rw [List.sum_cons] at hend
    obtain ⟨hpos, hle⟩ := hns n (List.mem_cons_self ..)
    have hrest := @ih (fun m hm => hns m (List.mem_cons_of_mem n hm))
      { nv with m_used := nv.m_used + n } (by dsimp only; omega) hlen
    rw [extractAll, extract_eq hpos hle (by omega) hlen, Option.bind_some, hrest]
    rfl

theorem taken_within {ws : List (BitVec 64)} {u n : ℕ} (hin : u % 32 + n ≤ 32) :
    taken ws u n = if (ws.getD (u / 32) 0).getLsbD (32 - u % 32 - n) then 1 else 0 := by
  rw [taken, if_pos hin]
  apply BitVec.eq_of_getLsbD_eq
  intro q hq
  rw [BitVec.getLsbD_ushiftRight, BitVec.getLsbD_and, BitVec.getLsbD_shiftLeft, BitVec.getLsbD_one]
  by_cases hq0 : q = 0
  · have hlow : 32 - u % 32 - n < 64 := by omega
    subst hq0
    cases (ws.getD (u / 32) 0).getLsbD (32 - u % 32 - n) <;> simp [hlow]
  · split_ifs <;> simp [hq0]

/-- Of a value within one word the lowest bit is extracted, and the others are right. -/
theorem Stands.taken {ws : List (BitVec 64)} {u n : ℕ} {v : BitVec 64} (h : Stands ws u n v) :
    NixVec64.taken ws u n = if u % 32 + n ≤ 32 then v &&& 1 else v := by
  by_cases hin : u % 32 + n ≤ 32
  · rw [taken_within hin, h.within hin, if_pos hin]
    apply BitVec.eq_of_getLsbD_eq
    intro q hq
    rw [BitVec.getLsbD_and]
    by_cases hq0 : q = 0
    · subst hq0
      cases v.getLsbD 0 <;> simp
    · split_ifs <;> simp [hq0, BitVec.getLsbD_one]
  · rw [NixVec64.taken, if_neg hin, if_neg hin]
    apply BitVec.eq_of_getLsbD_eq
    intro q hq
    rw [BitVec.getLsbD_or, BitVec.getLsbD_shiftLeft, BitVec.getLsbD_and, BitVec.getLsbD_ushiftRight,
      h.rest (by omega)]
    by_cases hq0 : q = u % 32 + n - 32
    · subst hq0
      rw [Nat.sub_self, h.first (by omega)]
      simp
    · have hone : ¬ (q - (u % 32 + n - 32) = 0 ∧ ¬ q < u % 32 + n - 32) := by omega
      by_cases hlow : q < u % 32 + n - 32
      · simp [hlow]
      · have hne : ¬ q - (u % 32 + n - 32) = 0 := by omega
        simp [hne, BitVec.getLsbD_one]

theorem and_one_eq_iff (v : BitVec 64) : v &&& 1 = v ↔ v ≤ 1 := by
  have hone : (1 : BitVec 64).toNat = 1 := rfl
  rw [← BitVec.toNat_inj, BitVec.toNat_and, BitVec.le_def, hone, Nat.and_one_is_mod]
  omega

/-- What is extracted as it was added: no value within one word is greater than 1. -/
def Narrow : ℕ → List (BitVec 64 × ℕ) → Prop
  | _, [] => True
  | u, p :: ps => (u % 32 + p.2 ≤ 32 → p.1 ≤ 1) ∧ Narrow (u + p.2) ps

instance decidableNarrow : (u : ℕ) → (ps : List (BitVec 64 × ℕ)) → Decidable (Narrow u ps)
  | _, [] => inferInstanceAs (Decidable True)
  | u, p :: ps =>
    have := decidableNarrow (u + p.2) ps
    inferInstanceAs (Decidable (_ ∧ _))

theorem takenAll_iff {ps : List (BitVec 64 × ℕ)} {ws : List (BitVec 64)} {u : ℕ}
    (h : StandAll ws u ps) :
    takenAll ws u (ps.map Prod.snd) = ps.map Prod.fst ↔ Narrow u ps := by
  induction ps generalizing u with
  | nil => exact iff_of_true rfl trivial
  | cons p ps ih =>
    have hrest := ih h.2
    rw [List.map_cons, List.map_cons, takenAll, List.cons.injEq, hrest, h.1.taken]
    apply and_congr_left'
    by_cases hin : u % 32 + p.2 ≤ 32
    · rw [if_pos hin, and_one_eq_iff]
      exact ⟨fun hp _ => hp, fun hp => hp hin⟩
    · exact iff_of_true (if_neg hin) fun hno => absurd hno hin

/-! ### The copy -/

theorem reset_returns_iff {ps : List (BitVec 64 × ℕ)} (hps : ∀ p ∈ ps, Sized p) {nv : NixVec64}
    (h : Packed nv) (halth : nv.m_alth = total ps) (hall : StandAll nv.m_pNV 0 ps) :
    Returns nv.reset ps ↔ Narrow 0 ps := by
  have hns : ∀ n ∈ ps.map Prod.snd, 1 ≤ n ∧ n ≤ 31 := by
    simp only [List.forall_mem_map]
    exact fun p hp => ⟨(hps p hp).1, (hps p hp).2.1⟩
  have hsum : nv.reset.m_used + (ps.map Prod.snd).sum ≤ nv.reset.m_alth := by
    rw [show nv.reset.m_used = 0 from rfl, Nat.zero_add]
    exact halth.ge
  rw [Returns, extractAll_eq hns hsum h.length.ge, Option.some_inj]
  exact takenAll_iff hall

theorem copy_small {nv : NixVec64} (h : Packed nv) (hle : nv.m_alth ≤ 32) (junk : ℕ → BitVec 64) :
    nv.copy junk = nv.reset := by
  have hlth := h.lth
  have hlen := h.length
  have hno : ¬ nv.lth > 32 := by omega
  rw [copy, if_neg hno, reset]

theorem copyWord_zero (old junk : BitVec 64) : copyWord 0 old junk = junk := by
  show old &&& 0#64 ||| junk &&& BitVec.allOnes 64 = junk
  rw [BitVec.and_zero, BitVec.zero_or, BitVec.and_allOnes]

/-- `memcpy` reaches the middle of the new array, and never its last word. -/
theorem copy_last {nv : NixVec64} (h : Packed nv) (hgt : 32 < nv.m_alth) (junk : ℕ → BitVec 64) :
    (nv.copy junk).m_pNV.length = nv.m_pNV.length ∧
      (nv.copy junk).m_pNV.getD ((nv.m_alth - 1) / 32) 0 = junk ((nv.m_alth - 1) / 32) := by
  have hlth := h.lth
  have hlen := h.length
  have hlong : nv.lth > 32 := by omega
  have hk : nv.lth / 32 = nv.m_pNV.length := by omega
  have hlast : (nv.m_alth - 1) / 32 < nv.m_pNV.length := by omega
  have hnone : min 8 (nv.lth / 8 - 8 * ((nv.m_alth - 1) / 32)) = 0 := by omega
  rw [copy, if_pos hlong, hk]
  refine ⟨by simp, ?_⟩
  simp [List.getD_eq_getElem?_getD, hlast, hnone, copyWord_zero]

theorem takenAll_concat (ws : List (BitVec 64)) (u : ℕ) (ns : List ℕ) (n : ℕ) :
    takenAll ws u (ns ++ [n]) = takenAll ws u ns ++ [taken ws (u + ns.sum) n] := by
  induction ns generalizing u with
  | nil => rfl
  | cons m ns ih =>
    rw [List.cons_append, takenAll, ih, takenAll, List.sum_cons, Nat.add_assoc, List.cons_append]

/-- The last value of a long vector depends on what the copy does not write. -/
theorem copy_long {ps : List (BitVec 64 × ℕ)} (hps : ∀ p ∈ ps, Sized p) {nv : NixVec64}
    (h : Packed nv) (halth : nv.m_alth = total ps) (hgt : 32 < total ps)
    (hall : ∀ junk, Returns (nv.copy junk) ps) : False := by
  rcases List.eq_nil_or_concat ps with rfl | ⟨qs, p, rfl⟩
  · simp [total] at hgt
  rw [List.concat_eq_append] at *
  obtain ⟨hpos, hle, hv⟩ := hps p (by simp)
  have htotal : total (qs ++ [p]) = total qs + p.2 := by
    simp [total]
  have hns : ∀ n ∈ (qs ++ [p]).map Prod.snd, 1 ≤ n ∧ n ≤ 31 := by
    simp only [List.forall_mem_map]
    exact fun q hq => ⟨(hps q hq).1, (hps q hq).2.1⟩
  -- the last value, whatever stands in the new array
  have htaken : ∀ junk, taken (nv.copy junk).m_pNV (total qs) p.2 = p.1 := by
    intro junk
    obtain ⟨hlen, -⟩ := copy_last h (halth ▸ hgt) junk
    have hsum : (nv.copy junk).m_used + ((qs ++ [p]).map Prod.snd).sum ≤ (nv.copy junk).m_alth := by
      rw [show (nv.copy junk).m_used = 0 from rfl, Nat.zero_add]
      exact halth.ge
    have hr := hall junk
    rw [Returns, extractAll_eq hns hsum (hlen ▸ h.length.ge), Option.some_inj,
      List.map_append, List.map_append, List.map_singleton, List.map_singleton] at hr
    rw [takenAll_concat, show (nv.copy junk).m_used = 0 from rfl, Nat.zero_add] at hr
    exact List.singleton_inj.mp (List.append_inj' hr rfl).2
  have hword : ∀ junk, (nv.copy junk).m_pNV.getD ((total qs + p.2 - 1) / 32) 0 =
      junk ((total qs + p.2 - 1) / 32) := by
    intro junk
    rw [← htotal, ← halth]
    exact (copy_last h (halth ▸ hgt) junk).2
  obtain ⟨ones, hones⟩ : ∃ ones : BitVec 64, ∀ i < 64, ones.getLsbD i = true :=
    ⟨BitVec.allOnes 64, fun i hi => by rw [BitVec.getLsbD_allOnes, decide_eq_true hi]⟩
  have h1 := htaken fun _ => ones
  by_cases hin : total qs % 32 + p.2 ≤ 32
  · have hsame : (total qs + p.2 - 1) / 32 = total qs / 32 := by omega
    have h0 := htaken fun _ => 0
    rw [taken_within hin, ← hsame, hword] at h0 h1
    rw [hones _ (by omega), if_pos rfl] at h1
    rw [← h1] at h0
    simp at h0
  · have hnext : (total qs + p.2 - 1) / 32 = total qs / 32 + 1 := by omega
    rw [taken, if_neg hin, ← hnext, hword] at h1
    have hbit := congrArg (fun x : BitVec 64 => x.getLsbD 31) h1
    rw [BitVec.getLsbD_or, BitVec.getLsbD_ushiftRight, hones _ (by omega), Bool.or_true,
      getLsbD_of_lt hv hle] at hbit
    cases hbit

theorem narrow_short {ps : List (BitVec 64 × ℕ)} (hps : ∀ p ∈ ps, Sized p) {u : ℕ}
    (hu : u + total ps ≤ 32) : Narrow u ps ↔ ∀ p ∈ ps, p.1 ≤ 1 := by
  induction ps generalizing u with
  | nil => exact iff_of_true trivial fun p hp => absurd hp List.not_mem_nil
  | cons p ps ih =>
    obtain ⟨hpos, -⟩ := hps p (List.mem_cons_self ..)
    rw [total, List.map_cons, List.sum_cons] at hu
    have hin : u % 32 + p.2 ≤ 32 := by omega
    have hrest := ih (fun q hq => hps q (List.mem_cons_of_mem p hq)) (u := u + p.2) (by
      rw [total]
      omega)
    rw [Narrow, hrest, List.forall_mem_cons, forall_prop_of_true hin]

/-- The vector returns its values exactly if those that lie within a word are at most 1, and its
copy exactly if it has a single word in addition. -/
theorem returns_iff {ps : List (BitVec 64 × ℕ)} (hps : ∀ p ∈ ps, Sized p) :
    ∃ nv, init.addAll ps = some nv ∧ (Returns nv.reset ps ↔ Narrow 0 ps) ∧
      ((∀ junk, Returns (nv.copy junk) ps) ↔ total ps ≤ 32 ∧ ∀ p ∈ ps, p.1 ≤ 1) := by
  obtain ⟨nv, h1, h2, h3, -, h4⟩ := addAll_spec hps packed_init
  have halth : nv.m_alth = total ps := h3.trans (Nat.zero_add _)
  have hreset := reset_returns_iff hps h2 halth h4
  refine ⟨nv, h1, hreset, ?_⟩
  rcases Nat.lt_or_ge 32 (total ps) with hgt | hle
  · refine iff_of_false (copy_long hps h2 halth hgt) fun h => ?_
    exact absurd h.1 (Nat.not_le.mpr hgt)
  · simp only [copy_small h2 (halth ▸ hle), forall_const]
    rw [hreset, narrow_short hps (by omega)]
    exact (and_iff_right hle).symm

theorem returns_bits : ∃ nv, init.addAll [(1, 1), (0, 30), (5, 3)] = some nv ∧
    (Returns nv.reset [(1, 1), (0, 30), (5, 3)] ↔ Narrow 0 [(1, 1), (0, 30), (5, 3)]) ∧
    ((∀ junk, Returns (nv.copy junk) [(1, 1), (0, 30), (5, 3)]) ↔
      total [(1, 1), (0, 30), (5, 3)] ≤ 32 ∧
        ∀ p ∈ [((1 : BitVec 64), 1), (0, 30), (5, 3)], p.1 ≤ 1) :=
  returns_iff (by
    unfold Sized
    decide)

/-- Of 2 the lowest bit is returned. -/
theorem two_is_cut : ¬ ∀ ps : List (BitVec 64 × ℕ), (∀ p ∈ ps, Sized p) →
    ∃ nv, init.addAll ps = some nv ∧ Returns nv.reset ps ∧ ∀ junk, Returns (nv.copy junk) ps := by
  intro hall
  obtain ⟨nv, h1, h2, -⟩ := hall [(2, 2)] (by
    unfold Sized
    decide)
  obtain rfl : (⟨[0x80000000], 2, 2⟩ : NixVec64) = nv := Option.some.inj h1
  exact absurd h2 (by decide)

end NixVec64

end Ns2
