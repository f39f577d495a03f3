import Ns2.Lib.Machine
import Ns2.Routing.RouteLogic

/-! The matrix of link costs under insertions and resets. Node numbers are above 0, as `command`
and the satellite code pass them. -/

namespace Ns2

namespace RouteLogic

variable {ε : Type}

/-- The largest value of an int. -/
def intMax : ℕ := 2 ^ 31 - 1

/-- The number of rows, or none if the number of cells is not an int. -/
def alloc (s : RouteLogic ε) (n : ℕ) : Option (RouteLogic ε) :=
  if n * n ≤ intMax then
    some { s with
      size_ := n
      adj_ := fun _ => ⟨infinity, none⟩ }
  else none

/-- The loop `while (m <= n) m <<= 1` on ints. -/
def double (n : ℕ) : ℕ → ℕ → Option ℕ
  | 0, _ => none
  | fuel + 1, m =>
    if n < m then some m
    else if 2 * m ≤ intMax then double n fuel (2 * m)
    else none

/-- The copy of cell `(i, j)` from the old matrix of `osize` rows to that of `m` rows. -/
def copyCell (old : ℕ → AdjEntry ε) (osize m i : ℕ) (adj : ℕ → AdjEntry ε) (j : ℕ) :
    ℕ → AdjEntry ε :=
  Function.update adj (index i j m)
    { adj (index i j m) with cost := (old (index i j osize)).cost }

def copy (old : ℕ → AdjEntry ε) (osize m : ℕ) (adj : ℕ → AdjEntry ε) : ℕ → AdjEntry ε :=
  (List.range osize).foldl
    (fun adj i => (List.range osize).foldl (copyCell old osize m i) adj) adj

/-- An int has 31 bits below its sign, so the doubling never needs more rounds. -/
def check (s : RouteLogic ε) (n : ℕ) : Option (RouteLogic ε) :=
  if n < s.size_ then some s
  else do
    let m ← double n 32 (if s.size_ = 0 then 16 else s.size_)
    let t ← s.alloc m
    return { t with
      size_ := m
      adj_ := copy s.adj_ s.size_ m t.adj_ }

def insert (s : RouteLogic ε) (src dst : ℕ) (cost : ℚ) : Option (RouteLogic ε) := do
  let s ← s.check src
  let s ← s.check dst
  let k := index src dst s.size_
  return { s with adj_ := Function.update s.adj_ k { s.adj_ k with cost := cost } }

/-- The other `insert`, which stores a link entry too. -/
def insertEntry (s : RouteLogic ε) (src dst : ℕ) (cost : ℚ) (entry : Option ε) :
    Option (RouteLogic ε) := do
  let s ← s.check src
  let s ← s.check dst
  return { s with adj_ := Function.update s.adj_ (index src dst s.size_) ⟨cost, entry⟩ }

/-- None if an assertion fails. -/
def reset (s : RouteLogic ε) (src dst : ℕ) : Option (RouteLogic ε) :=
  if src < s.size_ ∧ dst < s.size_ then
    let k := index src dst s.size_
    some { s with adj_ := Function.update s.adj_ k { s.adj_ k with cost := infinity } }
  else none

/-- What the matrix says about the link from `i` to `j`. -/
def cell (s : RouteLogic ε) (i j : ℕ) : AdjEntry ε :=
  if i < s.size_ ∧ j < s.size_ then s.adj_ (index i j s.size_) else ⟨infinity, none⟩

theorem cell_inside {s : RouteLogic ε} {i j : ℕ} (h : i < s.size_ ∧ j < s.size_) :
    s.cell i j = s.adj_ (index i j s.size_) :=
  if_pos h

theorem cell_outside {s : RouteLogic ε} {i j : ℕ} (h : ¬ (i < s.size_ ∧ j < s.size_)) :
    s.cell i j = ⟨infinity, none⟩ :=
  if_neg h

theorem foldl_copyCell {old adj : ℕ → AdjEntry ε} {osize m i i' j' : ℕ} (hj' : j' < m) :
    ∀ k ≤ m, (List.range k).foldl (copyCell old osize m i) adj (index i' j' m) =
      if i' = i ∧ j' < k then { adj (index i' j' m) with cost := (old (index i' j' osize)).cost }
      else adj (index i' j' m)
  | 0, _ => by simp
  | k + 1, hk => by
    rw [List.range_succ, List.foldl_append, List.foldl_cons, List.foldl_nil, copyCell]
    by_cases hcell : i' = i ∧ j' = k
    · obtain ⟨rfl, rfl⟩ := hcell
      rw [Function.update_self, foldl_copyCell hj' _ (by omega), if_neg (by omega),
        if_pos ⟨rfl, by omega⟩]
    · have hne : index i' j' m ≠ index i k m := fun he =>
        hcell ((index_inj hj' (by omega)).mp he)
      rw [Function.update_of_ne hne, foldl_copyCell hj' _ (by omega)]
      congr 1
      apply propext
      omega

theorem copy_eq {old adj : ℕ → AdjEntry ε} {osize m i' j' : ℕ} (hj' : j' < m) (hle : osize ≤ m) :
    copy old osize m adj (index i' j' m) = if i' < osize ∧ j' < osize then
        { adj (index i' j' m) with cost := (old (index i' j' osize)).cost }
      else adj (index i' j' m) := by
  have hrows : ∀ k, (List.range k).foldl
      (fun adj i => (List.range osize).foldl (copyCell old osize m i) adj) adj (index i' j' m) =
      if i' < k ∧ j' < osize then
        { adj (index i' j' m) with cost := (old (index i' j' osize)).cost }
      else adj (index i' j' m) := by
    intro k
    induction k with
    | zero => simp
    | succ k ih =>
      rw [List.range_succ, List.foldl_append, List.foldl_cons, List.foldl_nil,
        foldl_copyCell hj' _ hle]
      by_cases hrow : i' = k ∧ j' < osize
      · rw [if_pos hrow, ih, if_neg (by omega), if_pos (by omega)]
      · rw [if_neg hrow, ih]
        congr 1
        apply propext
        omega
  exact hrows osize

/-- The sizes that the matrix takes. -/
def Sized (s : RouteLogic ε) : Prop := s.size_ = 0 ∨ ∃ b, 4 ≤ b ∧ b ≤ 15 ∧ s.size_ = 2 ^ b

theorem double_small {n : ℕ} (hn : n < 2 ^ 15) :
    ∀ (fuel : ℕ) {b : ℕ}, b ≤ 15 → 15 < fuel + b →
      ∃ b', b ≤ b' ∧ b' ≤ 15 ∧ n < 2 ^ b' ∧ double n fuel (2 ^ b) = some (2 ^ b')
  | 0, b, hb, hfuel => by omega
  | fuel + 1, b, hb, hfuel => by
    rw [double]
    by_cases hlt : n < 2 ^ b
    · exact ⟨b, le_rfl, hb, hlt, if_pos hlt⟩
    · have hb15 : b ≠ 15 := by
        rintro rfl
        exact hlt hn
      have hpow : 2 ^ (b + 1) ≤ 2 ^ 15 := Nat.pow_le_pow_right (by omega) (by omega)
      obtain ⟨b', hle, hb', hn', he⟩ := double_small hn fuel (b := b + 1) (by omega)
        (by omega)
      have htwice : 2 * 2 ^ b = 2 ^ (b + 1) := by ring
      rw [if_neg hlt, htwice, if_pos (hpow.trans (by decide))]
      exact ⟨b', by omega, hb', hn', he⟩

theorem double_large {n : ℕ} :
    ∀ {fuel b k : ℕ}, double n fuel (2 ^ b) = some k → n < k ∧ ∃ b', k = 2 ^ b'
  | 0, _, _, h => by simp [double] at h
  | fuel + 1, b, k, h => by
    rw [double] at h
    split_ifs at h with hlt hmax
    · obtain rfl := Option.some.inj h
      exact ⟨hlt, b, rfl⟩
    · rw [show 2 * 2 ^ b = 2 ^ (b + 1) by ring] at h
      exact double_large h

theorem Sized.start {s : RouteLogic ε} (h : s.Sized) :
    ∃ b, 4 ≤ b ∧ b ≤ 15 ∧ (if s.size_ = 0 then 16 else s.size_) = 2 ^ b := by
  rcases h with h0 | ⟨b, hb, hb15, he⟩
  · exact ⟨4, le_rfl, by omega, by rw [if_pos h0]; rfl⟩
  · exact ⟨b, hb, hb15, by rw [if_neg (by rw [he]; positivity), he]⟩

theorem Sized.le {s : RouteLogic ε} (h : s.Sized) : s.size_ ≤ 2 ^ 15 := by
  rcases h with h0 | ⟨b, -, hb, he⟩
  · omega
  · rw [he]
    exact Nat.pow_le_pow_right (by omega) hb

/-- `check` succeeds on the numbers below 2^15, and keeps the costs but no entry when the matrix
grows. -/
theorem Sized.check {s : RouteLogic ε} (h : s.Sized) {n : ℕ} (hn : n < 2 ^ 15) :
    ∃ t, s.check n = some t ∧ t.Sized ∧ n < t.size_ ∧ s.size_ ≤ t.size_ ∧
      ∀ i j, t.cell i j = if n < s.size_ then s.cell i j else ⟨(s.cell i j).cost, none⟩ := by
  by_cases hlt : n < s.size_
  · exact ⟨s, if_pos hlt, h, hlt, le_rfl, fun i j => (if_pos hlt).symm⟩
  · obtain ⟨b, hb, hb15, hstart⟩ := h.start
    have hsize : s.size_ ≤ 2 ^ b := by
      rw [← hstart]
      split_ifs <;> omega
    obtain ⟨b', hle, hb', hn', hdouble⟩ := double_small hn 32 hb15 (by omega)
    have hgrow : s.size_ ≤ 2 ^ b' := hsize.trans (Nat.pow_le_pow_right (by omega) hle)
    have hint : 2 ^ b' * 2 ^ b' ≤ intMax := by
      have hpow : 2 ^ b' ≤ 2 ^ 15 := Nat.pow_le_pow_right (by omega) hb'
      exact (Nat.mul_le_mul hpow hpow).trans (by decide)
    refine ⟨⟨2 ^ b', copy s.adj_ s.size_ (2 ^ b') fun _ => ⟨infinity, none⟩, s.route_⟩, ?_,
      .inr ⟨b', by omega, hb', rfl⟩, hn', hgrow, fun i j => ?_⟩
    · rw [RouteLogic.check, if_neg hlt, hstart, hdouble, Option.bind_eq_bind, Option.bind_some,
        alloc, if_pos hint]
      rfl
    · rw [if_neg hlt]
      by_cases hin : i < 2 ^ b' ∧ j < 2 ^ b'
      · by_cases hold : i < s.size_ ∧ j < s.size_
        · simp only [cell, if_pos hin, if_pos hold, copy_eq hin.2 hgrow]
        · simp only [cell, if_pos hin, if_neg hold, copy_eq hin.2 hgrow]
      · have hold : ¬ (i < s.size_ ∧ j < s.size_) := by omega
        simp only [cell, if_neg hin, if_neg hold]

theorem Sized.check_large {s : RouteLogic ε} (h : s.Sized) {n : ℕ} (hn : 2 ^ 15 ≤ n) :
    s.check n = none := by
  obtain ⟨b, -, -, hstart⟩ := h.start
  rw [RouteLogic.check, if_neg (by have := h.le; omega), Option.bind_eq_bind, hstart]
  cases hd : double n 32 (2 ^ b) with
  | none => rfl
  | some m =>
    obtain ⟨hlt, b', rfl⟩ := double_large hd
    have hb' : 15 < b' := (Nat.pow_lt_pow_iff_right (by omega)).mp (hn.trans_lt hlt)
    have hpow : 2 ^ 16 ≤ 2 ^ b' := Nat.pow_le_pow_right (by omega) hb'
    have hint : ¬ 2 ^ b' * 2 ^ b' ≤ intMax :=
      Nat.not_le.mpr (lt_of_lt_of_le (by decide) (Nat.mul_le_mul hpow hpow))
    rw [Option.bind_some, alloc, if_neg hint]
    rfl

theorem Sized.checks {s : RouteLogic ε} (h : s.Sized) {src dst : ℕ} (hsrc : src < 2 ^ 15)
    (hdst : dst < 2 ^ 15) :
    ∃ t₁ t, s.check src = some t₁ ∧ t₁.check dst = some t ∧ t.Sized ∧ src < t.size_ ∧
      dst < t.size_ ∧ ∀ i j, t.cell i j =
        if src < s.size_ ∧ dst < s.size_ then s.cell i j else ⟨(s.cell i j).cost, none⟩ := by
  obtain ⟨t₁, h₁, hs₁, hlt₁, hle₁, hcell₁⟩ := h.check hsrc
  obtain ⟨t, h₂, hs₂, hlt₂, hle₂, hcell₂⟩ := hs₁.check hdst
  refine ⟨t₁, t, h₁, h₂, hs₂, hlt₁.trans_le hle₂, hlt₂, fun i j => ?_⟩
  rw [hcell₂, hcell₁]
  by_cases hs : src < s.size_
  · have he : t₁ = s := Option.some.inj (h₁.symm.trans (if_pos hs))
    subst he
    by_cases hd : dst < t₁.size_ <;> simp [hs, hd]
  · by_cases hd : dst < t₁.size_ <;> simp [hs, hd]

/-- A write to the cell of a pair inside the matrix. -/
def put (s : RouteLogic ε) (src dst : ℕ) (e : AdjEntry ε) : RouteLogic ε :=
  { s with adj_ := Function.update s.adj_ (index src dst s.size_) e }

@[simp] theorem size_put (s : RouteLogic ε) (src dst : ℕ) (e : AdjEntry ε) :
    (s.put src dst e).size_ = s.size_ := rfl

theorem cell_put {s : RouteLogic ε} {src dst : ℕ} (hsrc : src < s.size_) (hdst : dst < s.size_)
    (e : AdjEntry ε) (i j : ℕ) :
    (s.put src dst e).cell i j = if i = src ∧ j = dst then e else s.cell i j := by
  by_cases hin : i < s.size_ ∧ j < s.size_
  · rw [cell_inside (s := s.put src dst e) hin, cell_inside hin]
    by_cases hpair : i = src ∧ j = dst
    · obtain ⟨rfl, rfl⟩ := hpair
      rw [if_pos ⟨rfl, rfl⟩]
      exact Function.update_self ..
    · rw [if_neg hpair]
      exact Function.update_of_ne (fun he => hpair ((index_inj hin.2 hdst).mp he)) ..
  · have hpair : ¬ (i = src ∧ j = dst) := by omega
    rw [cell_outside (s := s.put src dst e) hin, cell_outside hin, if_neg hpair]

/-- What both insertions do: the checks, then a write to the cell. -/
def insertion (s : RouteLogic ε) (src dst : ℕ) (f : RouteLogic ε → AdjEntry ε) :
    Option (RouteLogic ε) :=
  (s.check src).bind fun s => (s.check dst).bind fun s => some (s.put src dst (f s))

theorem insert_eq (s : RouteLogic ε) (src dst : ℕ) (cost : ℚ) :
    s.insert src dst cost = s.insertion src dst
      fun s => { s.adj_ (index src dst s.size_) with cost := cost } := rfl

theorem insertEntry_eq (s : RouteLogic ε) (src dst : ℕ) (cost : ℚ) (entry : Option ε) :
    s.insertEntry src dst cost entry = s.insertion src dst fun _ => ⟨cost, entry⟩ := rfl

theorem insertion_of_checks {s t₁ t : RouteLogic ε} {src dst : ℕ} (h₁ : s.check src = some t₁)
    (h₂ : t₁.check dst = some t) (f : RouteLogic ε → AdjEntry ε) :
    s.insertion src dst f = some (t.put src dst (f t)) := by
  rw [insertion, h₁, Option.bind_some, h₂, Option.bind_some]

inductive Call (ε : Type)
  | insert (src dst : ℕ) (cost : ℚ)
  | insertEntry (src dst : ℕ) (cost : ℚ) (entry : Option ε)
  | reset (src dst : ℕ)

/-- The cost and the entry that the calls so far have stored for each pair. -/
abbrev Stored (ε : Type) := ℕ → ℕ → AdjEntry ε

def Stored.put (r : Stored ε) (src dst : ℕ) (e : AdjEntry ε) : Stored ε :=
  fun i j => if i = src ∧ j = dst then e else r i j

def Stored.record (r : Stored ε) : Call ε → Stored ε
  | .insert src dst cost => r.put src dst { r src dst with cost := cost }
  | .insertEntry src dst cost entry => r.put src dst ⟨cost, entry⟩
  | .reset src dst => r.put src dst { r src dst with cost := infinity }

/-- One call, with a record of what is stored. No state is left once an assertion has failed. -/
def step : Option (RouteLogic ε × Stored ε) → Call ε →
    Option (Option (RouteLogic ε × Stored ε) × Unit)
  | none, _ => some (none, ())
  | some (s, r), c =>
    match c with
    | .insert src dst cost => (s.insert src dst cost).map fun t => (some (t, r.record c), ())
    | .insertEntry src dst cost entry =>
      (s.insertEntry src dst cost entry).map fun t => (some (t, r.record c), ())
    | .reset src dst => some ((s.reset src dst).map fun t => (t, r.record c), ())

/-- The object as it is constructed. -/
def start : Option (RouteLogic ε × Stored ε) :=
  some (⟨0, fun _ => ⟨infinity, none⟩, fun _ => ⟨0, none⟩⟩, fun _ _ => ⟨infinity, none⟩)

/-- The matrix holds what the calls have stored. -/
def Holds (p : Option (RouteLogic ε × Stored ε)) : Prop :=
  ∀ q ∈ p, ∀ i j, q.1.cell i j = q.2 i j

/-- The numbers are small enough for the size of the matrix, and no entry is stored when it
grows. -/
def GrowsBare (s : RouteLogic ε) (src dst : ℕ) : Prop :=
  src < 2 ^ 15 ∧ dst < 2 ^ 15 ∧
    (s.size_ ≤ src ∨ s.size_ ≤ dst → ∀ i j, (s.cell i j).entry = none)

def Keeps : Option (RouteLogic ε × Stored ε) → Call ε → Prop
  | some (s, _), .insert src dst _ => s.GrowsBare src dst
  | some (s, _), .insertEntry src dst _ _ => s.GrowsBare src dst
  | _, _ => True

/-- The invariant of the runs. -/
def Recorded (p : Option (RouteLogic ε × Stored ε)) : Prop :=
  Holds p ∧ ∀ q ∈ p, q.1.Sized

/-- After both checks the matrix still holds what it held, if it was allowed to grow. -/
theorem GrowsBare.cell {s t : RouteLogic ε} {src dst : ℕ} (h : s.GrowsBare src dst)
    (hcell : ∀ i j, t.cell i j =
      if src < s.size_ ∧ dst < s.size_ then s.cell i j else ⟨(s.cell i j).cost, none⟩) (i j : ℕ) :
    t.cell i j = s.cell i j := by
  rw [hcell]
  split_ifs with hin
  · rfl
  · rw [← h.2.2 (by omega) i j]

theorem Recorded.put {s t : RouteLogic ε} {r : Stored ε} (h : Recorded (some (s, r))) (ht : t.Sized)
    {src dst : ℕ} (hsrc : src < t.size_) (hdst : dst < t.size_)
    (hcell : ∀ i j, t.cell i j = s.cell i j) (e : AdjEntry ε) :
    Recorded (some (t.put src dst e, r.put src dst e)) := by
  refine ⟨?_, ?_⟩
  · rintro _ ⟨rfl⟩ i j
    rw [cell_put hsrc hdst, hcell, h.1 _ rfl]
    rfl
  · rintro _ ⟨rfl⟩
    exact ht

theorem Recorded.insertion {s : RouteLogic ε} {r : Stored ε} (h : Recorded (some (s, r)))
    {src dst : ℕ} (hk : s.GrowsBare src dst) (f : RouteLogic ε → AdjEntry ε) (e : AdjEntry ε)
    (hf : ∀ t : RouteLogic ε, src < t.size_ → dst < t.size_ → t.cell src dst = r src dst →
      f t = e) :
    ∃ t, s.insertion src dst f = some t ∧ Recorded (some (t, r.put src dst e)) := by
  obtain ⟨t₁, t, h₁, h₂, ht, hsrc, hdst, hcell⟩ := (h.2 _ rfl).checks hk.1 hk.2.1
  have hsame := hk.cell hcell
  have he : f t = e := hf t hsrc hdst ((hsame src dst).trans (h.1 _ rfl src dst))
  rw [insertion_of_checks h₁ h₂ f, he]
  exact ⟨_, rfl, h.put ht hsrc hdst hsame e⟩

theorem Recorded.next {p : Option (RouteLogic ε × Stored ε)} {c : Call ε} (h : Recorded p)
    (hk : Keeps p c) : ∃ p' u, step p c = some (p', u) ∧ Recorded p' := by
  cases p with
  | none => exact ⟨none, (), rfl, h⟩
  | some q =>
    obtain ⟨s, r⟩ := q
    cases c with
    | insert src dst cost =>
      obtain ⟨t, ht, hI⟩ := h.insertion hk
        (fun s => { s.adj_ (index src dst s.size_) with cost := cost })
        { r src dst with cost := cost } fun t hsrc hdst hcell => by
          rw [← cell_inside ⟨hsrc, hdst⟩, hcell]
      exact ⟨_, (), by rw [step, insert_eq, ht]; rfl, hI⟩
    | insertEntry src dst cost entry =>
      obtain ⟨t, ht, hI⟩ := h.insertion hk (fun _ => ⟨cost, entry⟩) ⟨cost, entry⟩
        fun _ _ _ _ => rfl
      exact ⟨_, (), by rw [step, insertEntry_eq, ht]; rfl, hI⟩
    | reset src dst =>
      by_cases hin : src < s.size_ ∧ dst < s.size_
      · have hcell : s.cell src dst = r src dst := h.1 _ rfl src dst
        have hput := h.put (h.2 _ rfl) hin.1 hin.2 (fun _ _ => rfl)
          { r src dst with cost := infinity }
        refine ⟨_, (), ?_, hput⟩
        rw [← hcell, cell_inside hin, step, reset, if_pos hin, Stored.record, ← hcell,
          cell_inside hin]
        rfl
      · exact ⟨none, (), by rw [step, reset, if_neg hin]; rfl, by simp [Holds], by simp⟩

/-- An insertion that may not grow the matrix is undefined or loses an entry. -/
theorem Recorded.lost {s t : RouteLogic ε} {r : Stored ε} (h : Recorded (some (s, r))) {src dst : ℕ}
    {f : RouteLogic ε → AdjEntry ε} {e : AdjEntry ε} (hno : ¬ s.GrowsBare src dst)
    (ht : s.insertion src dst f = some t) : ¬ Holds (some (t, r.put src dst e)) := by
  have hs : s.Sized := h.2 _ rfl
  obtain ⟨t₁, h₁, ht₁⟩ := Option.bind_eq_some_iff.mp ht
  obtain ⟨t₂, h₂, -⟩ := Option.bind_eq_some_iff.mp ht₁
  have hsrc : src < 2 ^ 15 := by
    by_contra hlarge
    rw [hs.check_large (by omega)] at h₁
    cases h₁
  have hdst : dst < 2 ^ 15 := by
    by_contra hlarge
    obtain ⟨t₁', h₁', hs₁, -⟩ := hs.check hsrc
    obtain rfl := Option.some.inj (h₁.symm.trans h₁')
    rw [hs₁.check_large (by omega)] at h₂
    cases h₂
  obtain ⟨u₁, u, hu₁, hu, -, hlt, hlt', hcell⟩ := hs.checks hsrc hdst
  obtain rfl := Option.some.inj (ht.symm.trans (insertion_of_checks hu₁ hu f))
  simp only [GrowsBare, hsrc, hdst, true_and, Classical.not_imp, not_forall] at hno
  obtain ⟨hgrow, i, j, hentry⟩ := hno
  have hpair : ¬ (i = src ∧ j = dst) := by
    rintro ⟨rfl, rfl⟩
    exact hentry (by rw [cell_outside (by omega)])
  intro hholds
  have hij := hholds _ rfl i j
  have hstored : s.cell i j = r i j := h.1 _ rfl i j
  simp only [cell_put hlt hlt', if_neg hpair, hcell, Stored.put,
    if_neg (show ¬ (src < s.size_ ∧ dst < s.size_) by omega)] at hij
  rw [← hstored] at hij
  exact hentry (congrArg AdjEntry.entry hij).symm

theorem Recorded.next_break {p p' : Option (RouteLogic ε × Stored ε)} {c : Call ε} {u : Unit}
    (h : Recorded p) (hno : ¬ Keeps p c) (hstep : step p c = some (p', u)) : ¬ Holds p' := by
  cases p with
  | none => exact absurd trivial hno
  | some q =>
    obtain ⟨s, r⟩ := q
    cases c with
    | insert src dst cost =>
      obtain ⟨t, ht, he⟩ := Option.map_eq_some_iff.mp hstep
      obtain ⟨rfl, -⟩ := Prod.mk.inj he
      rw [insert_eq] at ht
      exact h.lost hno ht
    | insertEntry src dst cost entry =>
      obtain ⟨t, ht, he⟩ := Option.map_eq_some_iff.mp hstep
      obtain ⟨rfl, -⟩ := Prod.mk.inj he
      rw [insertEntry_eq] at ht
      exact h.lost hno ht
    | reset src dst => exact absurd trivial hno

theorem recorded_start : Recorded (start (ε := ε)) := by
  refine ⟨?_, ?_⟩
  · rintro _ ⟨rfl⟩ i j
    exact cell_outside (by simp)
  · rintro _ ⟨rfl⟩
    exact .inl rfl

/-- The matrix holds what the calls have stored for every pair, in every state of a run, exactly
when no insertion of the run grows the matrix over a stored entry or beyond 2^15 rows. -/
theorem insertions_keep_iff (calls : List (Call ε)) :
    Machine.Always step Holds start calls ↔ Machine.Admits step Keeps start calls :=
  Machine.always_iff (fun _ h => h.1) (fun _ _ h hk => h.next hk)
    (fun _ _ _ _ h hno hs => h.next_break hno hs) recorded_start calls

/-- The entry of the link from 1 to 2 is gone once node 16 is inserted. -/
theorem entry_is_lost : ¬ ∀ calls : List (Call ℕ), Machine.Always step Holds start calls := by
  intro h
  obtain ⟨p, os, hrun, hholds⟩ := (h [.insertEntry 1 2 1 (some 7), .insert 1 16 1]).run
  have hlost : (Machine.run step start [.insertEntry 1 2 1 (some 7), .insert 1 16 1]).map
      (fun q => q.1.map fun t => ((t.1.cell 1 2).entry, (t.2 1 2).entry)) =
      some (some (none, some 7)) := by
    decide +kernel
  rw [hrun] at hlost
  obtain ⟨t, rfl, ht⟩ := Option.map_eq_some_iff.mp (Option.some.inj hlost)
  rw [hholds t rfl 1 2] at ht
  have hne := Prod.mk.inj ht
  exact absurd (hne.1.symm.trans hne.2) (by decide)

end RouteLogic

end Ns2
