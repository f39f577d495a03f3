import Mathlib

/-! Linked lists and rings of nodes that know only the next one. -/

namespace NextPointers

variable {α : Type*} {next next' : α → Option α} {a n : α} {h k z : Option α} {l m t : List α}

/-- The pointers lead from `h` over the nodes of a list to `z`. -/
def Reaches (next : α → Option α) (z : Option α) : Option α → List α → Prop
  | h, [] => h = z
  | h, a :: l => h = some a ∧ Reaches next z (next a) l

/-- The nodes up to a null pointer. -/
def follow (next : α → Option α) : ℕ → Option α → Option (List α)
  | _, none => some []
  | 0, some _ => none
  | fuel + 1, some a => (follow next fuel (next a)).map (a :: ·)

theorem follow_eq (hl : Reaches next none h l) {fuel : ℕ} (hfuel : l.length ≤ fuel) :
    follow next fuel h = some l := by
  induction l generalizing h fuel with
  | nil =>
    obtain rfl : h = none := hl
    cases fuel <;> rfl
  | cons a l ih =>
    obtain ⟨rfl, hl⟩ := hl
    cases fuel with
    | zero => cases hfuel
    | succ fuel => rw [follow, ih hl (Nat.le_of_succ_le_succ hfuel), Option.map_some]

theorem Reaches.congr (hl : Reaches next z h l) (hn : ∀ a ∈ l, next' a = next a) :
    Reaches next' z h l := by
  induction l generalizing h with
  | nil => exact hl
  | cons a l ih =>
    obtain ⟨rfl, hl⟩ := hl
    refine ⟨rfl, ih ?_ fun b hb => hn b (List.mem_cons_of_mem a hb)⟩
    rw [hn a List.mem_cons_self]
    exact hl

theorem reaches_append : Reaches next z h (l ++ m) ↔ ∃ k, Reaches next k h l ∧ Reaches next z k m := by
  induction l generalizing h with
  | nil => exact ⟨fun hm => ⟨h, rfl, hm⟩, fun ⟨k, hk, hm⟩ => hk ▸ hm⟩
  | cons a l ih =>
    rw [List.cons_append, Reaches, ih]
    exact ⟨fun ⟨ha, k, hl, hm⟩ => ⟨k, ⟨ha, hl⟩, hm⟩, fun ⟨k, ⟨ha, hl⟩, hm⟩ => ⟨ha, k, hl, hm⟩⟩

/-- The pointers lead over one list. -/
theorem Reaches.unique (hl : Reaches next none h l) (hm : Reaches next none h m) : l = m := by
  induction l generalizing h m with
  | nil =>
    obtain rfl : h = none := hl
    cases m with
    | nil => rfl
    | cons b m => cases hm.1
  | cons a l ih =>
    obtain ⟨rfl, hl⟩ := hl
    cases m with
    | nil => cases (show some a = none from hm)
    | cons b m =>
      obtain ⟨hab, hm⟩ := hm
      obtain rfl := Option.some.inj hab
      rw [ih hl hm]

theorem Reaches.head (hl : Reaches next none h l) : h = l.head? := by
  cases l with
  | nil => exact hl
  | cons a l => exact hl.1

/-- Following the pointers from a node of the list leads over all of them back to it. -/
structure NextRing (next : α → Option α) (l : List α) : Prop where
  nodup : l.Nodup
  reaches : Reaches next l.head? l.head? l

theorem NextRing.congr (hr : NextRing next l) (hn : ∀ a ∈ l, next' a = next a) :
    NextRing next' l := ⟨hr.nodup, hr.reaches.congr hn⟩

theorem NextRing.nil : NextRing next [] := ⟨List.nodup_nil, rfl⟩

theorem NextRing.singleton (ha : next a = some a) : NextRing next [a] :=
  ⟨List.nodup_singleton a, rfl, ha⟩

variable [DecidableEq α]

/-- A new node behind the first one. -/
theorem NextRing.insert (hr : NextRing next (a :: t)) (hn : n ∉ a :: t) :
    NextRing (Function.update (Function.update next n (next a)) a (some n)) (a :: n :: t) := by
  obtain ⟨ha, ht⟩ := List.nodup_cons.mp hr.nodup
  obtain ⟨hna, hnt⟩ := not_or.mp (List.mem_cons.not.mp hn)
  refine ⟨List.nodup_cons.mpr ⟨?_, List.nodup_cons.mpr ⟨hnt, ht⟩⟩, rfl, ?_, ?_⟩
  · rw [List.mem_cons, not_or]
    exact ⟨Ne.symm hna, ha⟩
  · exact Function.update_self _ _ _
  · rw [Function.update_of_ne hna, Function.update_self]
    refine hr.reaches.2.congr fun b hb => ?_
    have hba : b ≠ a := fun he => ha (he ▸ hb)
    have hbn : b ≠ n := fun he => hnt (he ▸ hb)
    rw [Function.update_of_ne hba, Function.update_of_ne hbn]

/-- A new node before the first one. -/
theorem Reaches.push (hl : Reaches next z h l) (hn : n ∉ l) :
    Reaches (Function.update next n h) z (some n) (n :: l) := by
  refine ⟨rfl, ?_⟩
  rw [Function.update_self]
  refine hl.congr fun b hb => ?_
  have hbn : b ≠ n := fun he => hn (he ▸ hb)
  exact Function.update_of_ne hbn _ _

/-- The node behind `b` is taken out. -/
theorem Reaches.unlink {b : α} (hl : Reaches next z h (l ++ b :: a :: m))
    (hnd : (l ++ b :: a :: m).Nodup) :
    Reaches (Function.update next b (next a)) z h (l ++ b :: m) := by
  obtain ⟨k, hlk, hkb, hba, hm⟩ := reaches_append.mp hl
  obtain ⟨-, hbm, hdis⟩ := List.nodup_append.mp hnd
  have hb : b ∉ a :: m := (List.nodup_cons.mp hbm).1
  have hothers : ∀ x, x ≠ b → Function.update next b (next a) x = next x :=
    fun x hx => Function.update_of_ne hx _ _
  refine reaches_append.mpr ⟨k, hlk.congr fun x hx => ?_, hkb, ?_⟩
  · exact hothers x fun he => hdis x hx b List.mem_cons_self he
  · rw [Function.update_self]
    refine hm.congr fun x hx => ?_
    exact hothers x fun he => hb (he ▸ List.mem_cons_of_mem a hx)

/-- A new node behind the last one. -/
theorem Reaches.concat {b : α} (hl : Reaches next none h (l ++ [b])) (hnd : (l ++ [b]).Nodup)
    (hn : n ∉ l ++ [b]) :
    Reaches (Function.update (Function.update next n none) b (some n)) none h (l ++ [b, n]) := by
  obtain ⟨k, hlk, hkb, -⟩ := reaches_append.mp hl
  have hnb : n ≠ b := fun he => hn (by simp [he])
  refine reaches_append.mpr ⟨k, hlk.congr fun x hx => ?_, hkb, ?_, ?_⟩
  · have hxb : x ≠ b := fun he => (List.nodup_append.mp hnd).2.2 x hx b (by simp) he
    have hxn : x ≠ n := fun he => hn (he ▸ List.mem_append_left _ hx)
    rw [Function.update_of_ne hxb, Function.update_of_ne hxn]
  · exact Function.update_self ..
  · rw [Function.update_of_ne hnb, Function.update_self]
    rfl

end NextPointers
