import Ns2.Diffusion3.AttrsMatch

/-! When the comparisons of attributes are those of a total order, and what vectors match then. -/

namespace Ns2

open ByteRecords

section Bytes

variable {x y : Byte} {xs ys : List Byte} {n : ℕ}

theorem compare_cons (x y : Byte) (xs ys : List Byte) :
    compare (x :: xs) (y :: ys) = if x = y then compare xs ys else compare x y := by
  rw [List.compare_cons_cons]
  by_cases h : x = y
  · rw [if_pos h, h, Std.ReflOrd.compare_self]
    rfl
  · rw [if_neg h]
    cases hc : compare x y with
    | eq => exact absurd (Std.LawfulEqOrd.eq_of_compare hc) h
    | lt | gt => rfl

/-- Bytes in common length compare as the blobs do, or one is a part of the other. -/
theorem memcmp_min (xs ys : List Byte) : memcmp (min xs.length ys.length) xs ys =
    if xs <+: ys ∨ ys <+: xs then .eq else compare xs ys := by
  induction xs generalizing ys with
  | nil => simp [memcmp]
  | cons x xs ih =>
    cases ys with
    | nil => simp [memcmp]
    | cons y ys =>
      rw [List.length_cons, List.length_cons, Nat.succ_min_succ, memcmp, compare_cons, ih ys]
      by_cases h : x = y
      · subst h
        simp [List.cons_prefix_cons]
      · have h' : y ≠ x := fun he => h he.symm
        simp [List.cons_prefix_cons, h, h']

theorem memcmp_of_part (h : xs <+: ys ∨ ys <+: xs) :
    memcmp (min xs.length ys.length) xs ys = .eq := by rw [memcmp_min, if_pos h]

theorem memcmp_of_apart (hp : ¬ xs <+: ys) (hq : ¬ ys <+: xs) :
    memcmp (min xs.length ys.length) xs ys = compare xs ys := by
  rw [memcmp_min, if_neg (by simp [hp, hq])]

theorem memcmp_eq_iff (hlen : xs.length = ys.length) :
    memcmp xs.length xs ys = .eq ↔ xs = ys := by
  have hmin := memcmp_min xs ys
  rw [← hlen, min_self] at hmin
  rw [hmin]
  constructor
  · intro h
    split at h
    · next hp =>
      obtain hp | hp := hp
      · exact hp.eq_of_length hlen
      · exact (hp.eq_of_length hlen.symm).symm
    · exact Std.LawfulEqOrd.eq_of_compare h
  · rintro rfl
    simp

theorem compare_of_shorter (h : xs <+: ys) (hne : xs ≠ ys) : compare xs ys = .lt := by
  induction xs generalizing ys with
  | nil =>
    cases ys with
    | nil => exact absurd rfl hne
    | cons y ys => rfl
  | cons x xs ih =>
    cases ys with
    | nil => simp at h
    | cons y ys =>
      obtain ⟨hxy, hp⟩ := List.cons_prefix_cons.mp h
      rw [compare_cons, if_pos hxy]
      exact ih hp fun he => hne (by rw [hxy, he])

theorem compare_of_longer (h : ys <+: xs) (hne : xs ≠ ys) : compare xs ys = .gt := by
  rw [Std.OrientedOrd.eq_swap, compare_of_shorter h hne.symm]
  rfl

/-- Strings compare by their bytes up to the first terminator. -/
theorem strncmp_string (hxs : ∀ b ∈ xs, b ≠ 0) (hys : ∀ b ∈ ys, b ≠ 0)
    (hn : min xs.length ys.length < n) :
    strncmp n (xs ++ [0]) (ys ++ [0]) = compare (xs ++ [0]) (ys ++ [0]) := by
  obtain ⟨n, rfl⟩ : ∃ m, n = m + 1 := ⟨n - 1, by omega⟩
  induction xs generalizing ys n with
  | nil =>
    cases ys with
    | nil => simp [strncmp]
    | cons y ys =>
      have hy : (0 : Byte) ≠ y := (hys y (by simp)).symm
      simp only [List.nil_append, List.cons_append]
      rw [strncmp, compare_cons, if_neg hy, if_neg hy]
  | cons x xs ih =>
    have hx : x ≠ 0 := hxs x (by simp)
    cases ys with
    | nil =>
      simp only [List.nil_append, List.cons_append]
      rw [strncmp, compare_cons, if_neg hx, if_neg hx]
    | cons y ys =>
      simp only [List.cons_append]
      rw [strncmp, compare_cons]
      by_cases h : x = y
      · simp only [List.length_cons, Nat.succ_min_succ] at hn
        obtain ⟨m, rfl⟩ : ∃ m, n = m + 1 := ⟨n - 1, by omega⟩
        rw [if_pos h, if_pos h, if_neg hx]
        exact ih (fun b hb => hxs b (by simp [hb])) (fun b hb => hys b (by simp [hb])) m (by omega)
      · rw [if_neg h, if_neg h]

theorem strcmp_string (hxs : ∀ b ∈ xs, b ≠ 0) (hys : ∀ b ∈ ys, b ≠ 0) :
    strcmp (xs ++ [0]) (ys ++ [0]) = compare (xs ++ [0]) (ys ++ [0]) := by
  induction xs generalizing ys with
  | nil =>
    cases ys with
    | nil => simp [strcmp]
    | cons y ys =>
      have hy : (0 : Byte) ≠ y := (hys y (by simp)).symm
      simp only [List.nil_append, List.cons_append]
      rw [strcmp, compare_cons, if_neg hy, if_neg hy]
  | cons x xs ih =>
    have hx : x ≠ 0 := hxs x (by simp)
    cases ys with
    | nil =>
      simp only [List.nil_append, List.cons_append]
      rw [strcmp, compare_cons, if_neg hx, if_neg hx]
    | cons y ys =>
      simp only [List.cons_append]
      rw [strcmp, compare_cons]
      by_cases h : x = y
      · rw [if_pos h, if_pos h, if_neg hx]
        exact ih (fun b hb => hxs b (by simp [hb])) fun b hb => hys b (by simp [hb])
      · rw [if_neg h, if_neg h]

end Bytes

namespace NRAttribute

variable {a b : NRAttribute}

theorem Built.getLen (h : a.Built) (ht : a.type_ = STRING_TYPE ∨ a.type_ = BLOB_TYPE) :
    a.getLen = a.val_.length := by
  cases h with
  | int32 key op val => exact absurd ht (show ¬ (INT32_TYPE = _ ∨ INT32_TYPE = _) by decide)
  | float32 key op val => exact absurd ht (show ¬ (FLOAT32_TYPE = _ ∨ FLOAT32_TYPE = _) by decide)
  | float64 key op val => exact absurd ht (show ¬ (FLOAT64_TYPE = _ ∨ FLOAT64_TYPE = _) by decide)
  | string key op val h hlen =>
    simp only [NRAttribute.getLen, NRAttribute.string, BitVec.toNat_ofNat, List.length_append,
      List.length_singleton]
    omega
  | blob key op val hlen =>
    simp only [NRAttribute.getLen, NRAttribute.blob, BitVec.toNat_ofNat]
    omega

theorem Built.terminated (h : a.Built) (ht : a.type_ = STRING_TYPE) :
    ∃ xs : List Byte, a.val_ = xs ++ [0] ∧ ∀ b ∈ xs, b ≠ 0 := by
  cases h with
  | int32 key op val => exact absurd ht (show ¬ INT32_TYPE = _ by decide)
  | float32 key op val => exact absurd ht (show ¬ FLOAT32_TYPE = _ by decide)
  | float64 key op val => exact absurd ht (show ¬ FLOAT64_TYPE = _ by decide)
  | string key op val h hlen => exact ⟨val, rfl, h⟩
  | blob key op val hlen => exact absurd ht (show ¬ BLOB_TYPE = _ by decide)

theorem Built.type (h : a.Built) : a.type_ = INT32_TYPE ∨ a.type_ = FLOAT32_TYPE ∨
    a.type_ = FLOAT64_TYPE ∨ a.type_ = STRING_TYPE ∨ a.type_ = BLOB_TYPE := by
  cases h <;> simp [NRAttribute.number, NRAttribute.string, NRAttribute.blob]

theorem isSameKey_of (hkey : a.key_ = b.key_) (htype : a.type_ = b.type_) :
    a.isSameKey b = true := by simp [isSameKey, hkey, htype]

theorem order_swap (htype : a.type_ = b.type_) : b.order a = (a.order b).swap := by
  rw [order, order, htype]
  split
  · exact Std.OrientedOrd.eq_swap
  · split
    · exact Std.OrientedOrd.eq_swap
    · split <;> exact Std.OrientedOrd.eq_swap

theorem comparable_comm {w inf : ℕ} (v u : BitVec w) : comparable inf v u = comparable inf u v :=
  Bool.and_comm _ _

/-- The three comparisons of the code, up to a missing number. -/
structure Compares (a b : NRAttribute) (eq gt ge : Bool) : Prop where
  isEQ : a.isEQ b = some eq
  isGT : a.isGT b = some gt
  isGE : a.isGE b = some ge

theorem int_compares (x y : ℤ) : decide (x = y) = (compare x y == .eq) ∧
    decide (x > y) = (compare x y == .gt) ∧ decide (x ≥ y) = (compare x y != .lt) := by
  obtain h | h | h := lt_trichotomy x y
  · rw [compare_lt_iff_lt.mpr h]
    simp [h, h.ne, h.le]
  · rw [compare_eq_iff_eq.mpr h]
    simp [h]
  · rw [compare_gt_iff_gt.mpr h]
    simp [h, h.ne', h.le]

theorem compares_int32 (hkey : a.key_ = b.key_) (htype : a.type_ = b.type_)
    (ht : a.type_ = INT32_TYPE) :
    Compares a b (a.order b == .eq) (a.order b == .gt) (a.order b != .lt) := by
  have hsame := isSameKey_of hkey htype
  obtain ⟨h1, h2, h3⟩ := int_compares (getVal a).toInt (getVal b).toInt
  constructor
  · simp [isEQ, hsame, ht, order, h1]
  · simp [isGT, hsame, ht, order, ← h2]
  · simp [isGE, hsame, ht, order, ← h3]

theorem compares_float32 (hkey : a.key_ = b.key_) (htype : a.type_ = b.type_)
    (ht : a.type_ = FLOAT32_TYPE) : Compares a b
      (comparable INF32 (getVal a) (getVal b) && a.order b == .eq)
      (comparable INF32 (getVal a) (getVal b) && a.order b == .gt)
      (comparable INF32 (getVal a) (getVal b) && a.order b != .lt) := by
  have hsame := isSameKey_of hkey htype
  have hne : FLOAT32_TYPE ≠ INT32_TYPE := by decide
  obtain ⟨h1, h2, h3⟩ := int_compares (ordinal (getVal a)) (ordinal (getVal b))
  constructor
  · rw [isEQ, order, hsame, ht, if_neg (by simp), if_neg hne, if_pos rfl, if_neg hne, if_pos rfl,
      h1]
  · rw [isGT, order, hsame, ht, if_neg (by simp), if_neg hne, if_pos rfl, if_neg hne, if_pos rfl,
      h2]
  · rw [isGE, order, hsame, ht, if_neg (by simp), if_neg hne, if_pos rfl, if_neg hne, if_pos rfl,
      h3]

theorem compares_float64 (hkey : a.key_ = b.key_) (htype : a.type_ = b.type_)
    (ht : a.type_ = FLOAT64_TYPE) : Compares a b
      (comparable INF64 a.getVal64 b.getVal64 && a.order b == .eq)
      (comparable INF64 a.getVal64 b.getVal64 && a.order b == .gt)
      (comparable INF64 a.getVal64 b.getVal64 && a.order b != .lt) := by
  have hsame := isSameKey_of hkey htype
  have hne : FLOAT64_TYPE ≠ INT32_TYPE := by decide
  have hne' : FLOAT64_TYPE ≠ FLOAT32_TYPE := by decide
  obtain ⟨h1, h2, h3⟩ := int_compares (ordinal a.getVal64) (ordinal b.getVal64)
  constructor
  · rw [isEQ, order, hsame, ht, if_neg (by simp), if_neg hne, if_neg hne', if_pos rfl, if_neg hne,
      if_neg hne', if_pos rfl, h1]
  · rw [isGT, order, hsame, ht, if_neg (by simp), if_neg hne, if_neg hne', if_pos rfl, if_neg hne,
      if_neg hne', if_pos rfl, h2]
  · rw [isGE, order, hsame, ht, if_neg (by simp), if_neg hne, if_neg hne', if_pos rfl, if_neg hne,
      if_neg hne', if_pos rfl, h3]

theorem order_bytes (ht : a.type_ = STRING_TYPE ∨ a.type_ = BLOB_TYPE) :
    a.order b = compare a.val_ b.val_ := by
  obtain ht | ht := ht
  · simp [order, ht, STRING_TYPE, INT32_TYPE, FLOAT32_TYPE, FLOAT64_TYPE]
  · simp [order, ht, BLOB_TYPE, INT32_TYPE, FLOAT32_TYPE, FLOAT64_TYPE]

theorem compares_string (ha : a.Built) (hb : b.Built) (hkey : a.key_ = b.key_)
    (htype : a.type_ = b.type_) (ht : a.type_ = STRING_TYPE) :
    Compares a b (a.order b == .eq) (a.order b != .eq) (a.order b != .lt) := by
  have hsame := isSameKey_of hkey htype
  obtain ⟨xs, hxs, hx⟩ := ha.terminated ht
  obtain ⟨ys, hys, hy⟩ := hb.terminated (htype ▸ ht)
  have hla : a.getLen = xs.length + 1 := by rw [ha.getLen (.inl ht), hxs]; simp
  have hlb : b.getLen = ys.length + 1 := by rw [hb.getLen (.inl (htype ▸ ht)), hys]; simp
  have hcmp := order_bytes (b := b) (.inl ht)
  rw [hxs, hys] at hcmp
  have h1 : STRING_TYPE ≠ INT32_TYPE := by decide
  have h2 : STRING_TYPE ≠ FLOAT32_TYPE := by decide
  have h3 : STRING_TYPE ≠ FLOAT64_TYPE := by decide
  constructor
  · rw [isEQ, hsame, ht, if_neg (by simp), if_neg h1, if_neg h2, if_neg h3, if_pos rfl, hla, hlb,
      hxs, hys, hcmp]
    by_cases hlen : xs.length = ys.length
    · rw [if_neg (by omega), strncmp_string hx hy (by omega)]
    · have hne : xs ≠ ys := fun he => hlen (congrArg List.length he)
      rw [if_pos (by omega)]
      simp [hne]
  · rw [isGT, hsame, ht, if_neg (by simp), if_neg h1, if_neg h2, if_neg h3, if_pos rfl, hla, hlb,
      hxs, hys, hcmp, strncmp_string hx hy (by omega)]
  · rw [isGE, hsame, ht, if_neg (by simp), if_neg h1, if_neg h2, if_neg h3, if_pos rfl, hxs, hys,
      hcmp, strcmp_string hx hy]
    cases compare (xs ++ [0]) (ys ++ [0]) <;> rfl

theorem compares_blob (ha : a.Built) (hb : b.Built) (hkey : a.key_ = b.key_)
    (htype : a.type_ = b.type_) (ht : a.type_ = BLOB_TYPE) :
    Compares a b (a.order b == .eq) (a.order b == .gt)
      (a.order b != .lt || decide (a.val_ <+: b.val_)) := by
  have hsame := isSameKey_of hkey htype
  have hla := ha.getLen (.inr ht)
  have hlb := hb.getLen (.inr (htype ▸ ht))
  have hcmp := order_bytes (b := b) (.inr ht)
  have h1 : BLOB_TYPE ≠ INT32_TYPE := by decide
  have h2 : BLOB_TYPE ≠ FLOAT32_TYPE := by decide
  have h3 : BLOB_TYPE ≠ FLOAT64_TYPE := by decide
  have h4 : BLOB_TYPE ≠ STRING_TYPE := by decide
  constructor
  · rw [isEQ, hsame, ht, if_neg (by simp), if_neg h1, if_neg h2, if_neg h3, if_neg h4, if_pos rfl,
      hla, hlb, hcmp]
    by_cases hlen : a.val_.length = b.val_.length
    · rw [if_neg (by simpa using hlen)]
      by_cases he : a.val_ = b.val_
      · rw [(memcmp_eq_iff hlen).mpr he, he, Std.ReflOrd.compare_self]
      · have hne : memcmp a.val_.length a.val_ b.val_ ≠ .eq := fun h =>
          he ((memcmp_eq_iff hlen).mp h)
        simp [hne, he]
    · have hne : a.val_ ≠ b.val_ := fun he => hlen (congrArg List.length he)
      rw [if_pos (by simpa using hlen)]
      simp [hne]
  · rw [isGT, hsame, ht, if_neg (by simp), if_neg h1, if_neg h2, if_neg h3, if_neg h4, if_pos rfl,
      hla, hlb, hcmp]
    dsimp only
    by_cases hp : a.val_ <+: b.val_
    · have hlen := hp.length_le
      rw [memcmp_of_part (.inl hp)]
      by_cases he : a.val_ = b.val_
      · simp [he]
      · simp [compare_of_shorter hp he, hlen]
    · have he : a.val_ ≠ b.val_ := fun he => hp (he ▸ List.prefix_rfl)
      by_cases hq : b.val_ <+: a.val_
      · have hlen : b.val_.length < a.val_.length :=
          lt_of_le_of_ne hq.length_le fun h => he (hq.eq_of_length h).symm
        rw [memcmp_of_part (.inr hq), compare_of_longer hq he]
        simp [hlen]
      · rw [memcmp_of_apart hp hq]
        cases hc : compare a.val_ b.val_ with
        | eq => exact absurd (Std.LawfulEqOrd.eq_of_compare hc) he
        | lt | gt => rfl
  · rw [isGE, hsame, ht, if_neg (by simp), if_neg h1, if_neg h2, if_neg h3, if_neg h4, if_pos rfl,
      hla, hlb, hcmp]
    by_cases hp : a.val_ <+: b.val_
    · rw [memcmp_of_part (.inl hp), decide_eq_true hp, Bool.or_true]
      rfl
    · rw [decide_eq_false hp, Bool.or_false]
      have he : a.val_ ≠ b.val_ := fun he => hp (he ▸ List.prefix_rfl)
      by_cases hq : b.val_ <+: a.val_
      · rw [memcmp_of_part (.inr hq), compare_of_longer hq he]
        rfl
      · rw [memcmp_of_apart hp hq]
        cases compare a.val_ b.val_ <;> rfl

/-- Six answers that follow from four. -/
theorem consistent_iff_of {e g h e' g' h' : Bool} (hab : Compares a b e g h)
    (hba : Compares b a e' g' h') : Consistent a b ↔
      [!h, e, g].count true = 1 ∧ h = (g || e) ∧ (!g) = (!h || e) ∧ (!h') = g := by
  simp only [Consistent, isLT, isLE, hab.isEQ, hab.isGT, hab.isGE, hba.isGE, Option.map_some,
    Option.some.injEq]
  constructor
  · rintro ⟨lt, eq, gt, rfl, rfl, rfl, h1, h2, h3, h4⟩
    exact ⟨h1, h2, h3, h4⟩
  · rintro ⟨h1, h2, h3, h4⟩
    exact ⟨_, _, _, rfl, rfl, rfl, h1, h2, h3, h4⟩

theorem order_eq_iff (ht : a.type_ = STRING_TYPE ∨ a.type_ = BLOB_TYPE) :
    a.order b = .eq ↔ a.val_ = b.val_ := by
  rw [order_bytes ht]
  exact ⟨Std.LawfulEqOrd.eq_of_compare, fun h => by rw [h, Std.ReflOrd.compare_self]⟩

/-- Exactly the orderly pairs compare as in a total order. -/
theorem consistent_iff (ha : a.Built) (hb : b.Built) (hkey : a.key_ = b.key_)
    (htype : a.type_ = b.type_) : Consistent a b ↔ Orderly a b := by
  have hswap := order_swap htype
  obtain ht | ht | ht | ht | ht := ha.type
  · rw [consistent_iff_of (compares_int32 hkey htype ht)
      (compares_int32 hkey.symm htype.symm (htype ▸ ht)), hswap, Orderly, ht,
      if_neg (show INT32_TYPE ≠ FLOAT32_TYPE by decide),
      if_neg (show INT32_TYPE ≠ FLOAT64_TYPE by decide),
      if_neg (show INT32_TYPE ≠ STRING_TYPE by decide),
      if_neg (show INT32_TYPE ≠ BLOB_TYPE by decide)]
    cases a.order b <;> decide
  · rw [consistent_iff_of (compares_float32 hkey htype ht)
      (compares_float32 hkey.symm htype.symm (htype ▸ ht)), hswap, Orderly, ht, if_pos rfl,
      comparable_comm (getVal b)]
    cases comparable INF32 (getVal a) (getVal b) <;> cases a.order b <;> decide
  · rw [consistent_iff_of (compares_float64 hkey htype ht)
      (compares_float64 hkey.symm htype.symm (htype ▸ ht)), hswap, Orderly, ht,
      if_neg (show FLOAT64_TYPE ≠ FLOAT32_TYPE by decide), if_pos rfl, comparable_comm b.getVal64]
    cases comparable INF64 a.getVal64 b.getVal64 <;> cases a.order b <;> decide
  · rw [consistent_iff_of (compares_string ha hb hkey htype ht)
      (compares_string hb ha hkey.symm htype.symm (htype ▸ ht)), hswap, Orderly, ht,
      if_neg (show STRING_TYPE ≠ FLOAT32_TYPE by decide),
      if_neg (show STRING_TYPE ≠ FLOAT64_TYPE by decide), if_pos rfl]
    cases a.order b <;> decide
  · rw [consistent_iff_of (compares_blob ha hb hkey htype ht)
      (compares_blob hb ha hkey.symm htype.symm (htype ▸ ht)), hswap, Orderly, ht,
      if_neg (show BLOB_TYPE ≠ FLOAT32_TYPE by decide),
      if_neg (show BLOB_TYPE ≠ FLOAT64_TYPE by decide),
      if_neg (show BLOB_TYPE ≠ STRING_TYPE by decide), if_pos rfl]
    by_cases he : a.val_ = b.val_
    · rw [(order_eq_iff (.inr ht)).mpr he]
      simp [he]
    · rw [order_bytes (.inr ht)]
      by_cases hp : a.val_ <+: b.val_
      · simp [compare_of_shorter hp he, hp, he]
      · by_cases hq : b.val_ <+: a.val_
        · simp [compare_of_longer hq he, hp, hq, he]
        · have hne : compare a.val_ b.val_ ≠ .eq := fun hc => he (Std.LawfulEqOrd.eq_of_compare hc)
          cases hc : compare a.val_ b.val_ with
          | eq => exact absurd hc hne
          | lt | gt => simp [hp, hq]

/-- The comparisons of an orderly pair are what they should be. -/
theorem Orderly.compares (h : Orderly a b) (ha : a.Built) (hb : b.Built) (hkey : a.key_ = b.key_)
    (htype : a.type_ = b.type_) :
    Compares a b (a.order b == .eq) (a.order b == .gt) (a.order b != .lt) := by
  obtain ht | ht | ht | ht | ht := ha.type
  · exact compares_int32 hkey htype ht
  · have hc := compares_float32 hkey htype ht
    rw [Orderly, ht, if_pos rfl] at h
    simpa only [h, Bool.true_and] using hc
  · have hc := compares_float64 hkey htype ht
    rw [Orderly, ht, if_neg (by decide), if_pos rfl] at h
    simpa only [h, Bool.true_and] using hc
  · have hc := compares_string ha hb hkey htype ht
    rw [Orderly, ht, if_neg (by decide), if_neg (by decide), if_pos rfl] at h
    have hgt : (a.order b != .eq) = (a.order b == .gt) := by
      cases ho : a.order b with
      | lt => exact absurd ho h
      | eq | gt => rfl
    rwa [hgt] at hc
  · have hc := compares_blob ha hb hkey htype ht
    rw [Orderly, ht, if_neg (by decide), if_neg (by decide), if_neg (by decide), if_pos rfl] at h
    have hge : (a.order b != .lt || decide (a.val_ <+: b.val_)) = (a.order b != .lt) := by
      by_cases hp : a.val_ <+: b.val_
      · rw [(order_eq_iff (.inr ht)).mpr (h (.inl hp))]
        rfl
      · simp [hp]
    rwa [hge] at hc

theorem compareOp_eq (h : Orderly b a) (ha : a.Built) (hb : b.Built) (hkey : b.key_ = a.key_)
    (htype : b.type_ = a.type_) (hany : a.op_ ≠ EQ_ANY) :
    a.compareOp b = some (decide (Satisfies a.op_ b a)) := by
  obtain ⟨heq, hgt, hge⟩ := h.compares hb ha hkey htype
  rw [compareOp, isLT, isLE, isNE, heq, hgt, hge]
  simp only [Satisfies, hany, false_or]
  by_cases h1 : a.op_ = EQ
  · rw [if_pos h1]
    cases b.order a <;> simp [h1, EQ, NE, GT, GE, LT, LE]
  by_cases h2 : a.op_ = GT
  · rw [if_neg h1, if_pos h2]
    cases b.order a <;> simp [h2, EQ, NE, GT, GE, LT, LE]
  by_cases h3 : a.op_ = GE
  · rw [if_neg h1, if_neg h2, if_pos h3]
    cases b.order a <;> simp [h3, EQ, NE, GT, GE, LT, LE]
  by_cases h4 : a.op_ = LT
  · rw [if_neg h1, if_neg h2, if_neg h3, if_pos h4]
    cases b.order a <;> simp [h4, EQ, NE, GT, GE, LT, LE]
  by_cases h5 : a.op_ = LE
  · rw [if_neg h1, if_neg h2, if_neg h3, if_neg h4, if_pos h5]
    cases b.order a <;> simp [h5, EQ, NE, GT, GE, LT, LE]
  by_cases h6 : a.op_ = NE
  · rw [if_neg h1, if_neg h2, if_neg h3, if_neg h4, if_neg h5, if_pos h6]
    cases b.order a <;> simp [h6, EQ, NE, GT, GE, LT, LE]
  rw [if_neg h1, if_neg h2, if_neg h3, if_neg h4, if_neg h5, if_neg h6]
  simp [h1, h2, h3, h4, h5, h6]

theorem findMatch_eq {u : List NRAttribute} (ha : a.Built)
    (hu : ∀ b ∈ u, b.key_ = a.key_ → b.Built ∧ b.type_ = a.type_ ∧ Orderly b a) :
    a.findMatch u =
      some (decide (∃ b ∈ u, b.op_ = IS ∧ b.key_ = a.key_ ∧ Satisfies a.op_ b a)) := by
  induction u with
  | nil => simp [findMatch]
  | cons b u ih =>
    have ih := ih fun c hc => hu c (List.mem_cons_of_mem b hc)
    rw [findMatch, ih]
    simp only [List.exists_mem_cons_iff]
    by_cases hkey : b.key_ = a.key_
    · by_cases hop : b.op_ = IS
      · rw [if_neg (not_not.mpr hkey), if_neg (not_not.mpr hop)]
        by_cases hany : a.op_ = EQ_ANY
        · have hs : Satisfies a.op_ b a := .inl hany
          rw [if_pos hany]
          simp [hop, hkey, hs]
        · obtain ⟨hb, htype, hord⟩ := hu b (by simp) hkey
          rw [if_neg hany, compareOp_eq hord ha hb hkey htype hany]
          by_cases hs : Satisfies a.op_ b a <;> simp [hs, hop, hkey]
      · rw [if_neg (not_not.mpr hkey), if_pos hop]
        simp [hop]
    · rw [if_pos hkey]
      simp [hkey]

theorem oneWayMatch_eq {v u : List NRAttribute} (hv : ∀ a ∈ v, a.Built)
    (hu : ∀ a ∈ v, ∀ b ∈ u, b.key_ = a.key_ → b.Built ∧ b.type_ = a.type_ ∧ Orderly b a) :
    OneWayMatch u v = some (decide (Satisfied v u)) := by
  induction v with
  | nil => simp [OneWayMatch, Satisfied]
  | cons a v ih =>
    have ih := ih (fun b hb => hv b (List.mem_cons_of_mem a hb)) fun b hb =>
      hu b (List.mem_cons_of_mem a hb)
    have hcons : Satisfied (a :: v) u ↔ (a.op_ ≠ IS → ∃ b ∈ u, b.op_ = IS ∧ b.key_ = a.key_ ∧
        Satisfies a.op_ b a) ∧ Satisfied v u := List.forall_mem_cons
    rw [OneWayMatch, ih]
    by_cases hop : a.op_ = IS
    · rw [if_pos hop]
      simp [hcons, hop]
    · rw [if_neg hop, findMatch_eq (hv a (by simp)) (hu a (by simp))]
      by_cases hs : ∃ b ∈ u, b.op_ = IS ∧ b.key_ = a.key_ ∧ Satisfies a.op_ b a
      · simp only [decide_eq_true hs, hcons]
        simp [hs]
      · simp only [decide_eq_false hs, hcons]
        simp [hs, hop]

end NRAttribute

open NRAttribute

/-- The values of keyed attributes. -/
def attrsOf {types : BitVec 32 → BitVec 8} (v : List (KeyedAttr types)) : List NRAttribute :=
  v.map (·.1)

theorem keyed {types : BitVec 32 → BitVec 8} {v : List (KeyedAttr types)} {a : NRAttribute}
    (ha : a ∈ attrsOf v) : a.Built ∧ a.type_ = types a.key_ := by
  obtain ⟨b, -, rfl⟩ := List.mem_map.mp ha
  exact b.2

/-- Orderly vectors match as they should, without an abort. -/
theorem matchAttrs_eq {types : BitVec 32 → BitVec 8} {v u : List (KeyedAttr types)}
    (h : ∀ a ∈ attrsOf v ++ attrsOf u, ∀ b ∈ attrsOf v ++ attrsOf u, a.key_ = b.key_ →
      Orderly a b) :
    MatchAttrs (attrsOf v) (attrsOf u) = some (decide (Satisfied (attrsOf v) (attrsOf u) ∧
      Satisfied (attrsOf u) (attrsOf v))) := by
  have hone : ∀ {w x : List (KeyedAttr types)}, (∀ a ∈ attrsOf w, ∀ b ∈ attrsOf x, b.key_ = a.key_ →
      Orderly b a) → OneWayMatch (attrsOf x) (attrsOf w) =
        some (decide (Satisfied (attrsOf w) (attrsOf x))) := by
    intro w x hwx
    refine oneWayMatch_eq (fun a ha => (keyed ha).1) fun a ha b hb hkey => ?_
    refine ⟨(keyed hb).1, ?_, hwx a ha b hb hkey⟩
    rw [(keyed hb).2, (keyed ha).2, hkey]
  rw [MatchAttrs, hone fun a ha b hb => h b (List.mem_append_right _ hb) a
    (List.mem_append_left _ ha)]
  by_cases hs : Satisfied (attrsOf v) (attrsOf u)
  · simp only [decide_eq_true hs, hs, true_and]
    exact hone fun a ha b hb => h b (List.mem_append_left _ hb) a (List.mem_append_right _ ha)
  · simp [hs]

/-- The comparisons of two vectors' attributes are those of a total order, and the vectors match
by it, exactly when every pair of one key is orderly. -/
theorem orders_and_matches_iff {types : BitVec 32 → BitVec 8} (v u : List (KeyedAttr types)) :
    ((∀ a ∈ attrsOf v ++ attrsOf u, ∀ b ∈ attrsOf v ++ attrsOf u, a.key_ = b.key_ →
        Consistent a b) ∧
      MatchAttrs (attrsOf v) (attrsOf u) = some (decide (Satisfied (attrsOf v) (attrsOf u) ∧
        Satisfied (attrsOf u) (attrsOf v)))) ↔
    ∀ a ∈ attrsOf v ++ attrsOf u, ∀ b ∈ attrsOf v ++ attrsOf u, a.key_ = b.key_ → Orderly a b := by
  have hiff : ∀ a ∈ attrsOf v ++ attrsOf u, ∀ b ∈ attrsOf v ++ attrsOf u, a.key_ = b.key_ →
      (Consistent a b ↔ Orderly a b) := by
    intro a ha b hb hkey
    have ha' := (List.mem_append.mp ha).elim keyed keyed
    have hb' := (List.mem_append.mp hb).elim keyed keyed
    exact consistent_iff ha'.1 hb'.1 hkey (by rw [ha'.2, hb'.2, hkey])
  constructor
  · rintro ⟨h, -⟩ a ha b hb hkey
    exact (hiff a ha b hb hkey).mp (h a ha b hb hkey)
  · intro h
    exact ⟨fun a ha b hb hkey => (hiff a ha b hb hkey).mpr (h a ha b hb hkey), matchAttrs_eq h⟩

/-- Of the strings "a" and "b", the first is both less than the second and greater; so an attribute
with "a" matches one that asks for more than "b". And the blob 1 is not less than the blob 1, 2. -/
theorem a_above_b :
    (isLT (string 7 IS [97]) (string 7 GT [98]) = some true ∧
      isGT (string 7 IS [97]) (string 7 GT [98]) = some true ∧
      MatchAttrs [string 7 IS [97]] [string 7 GT [98]] = some true ∧
      ¬ Satisfied [string 7 GT [98]] [string 7 IS [97]]) ∧
    (isLT (blob 8 IS [1]) (blob 8 IS [1, 2]) = some false ∧
      isGT (blob 8 IS [1, 2]) (blob 8 IS [1]) = some true) := by
  decide

end Ns2
