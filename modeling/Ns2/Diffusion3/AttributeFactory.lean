import Ns2.Lib.Machine
import Ns2.Lib.NextPointers

/-! The registry of attribute factories: a list of all of them, which every new factory is checked
against before it joins. -/

namespace Ns2

open NextPointers

structure NRAttributeFactory where
  key_ : BitVec 16
  type_ : BitVec 8
  deriving DecidableEq

/-- The factories constructed so far, by their numbers, the pointers between them, and whether an
assertion has failed. -/
structure FactoryList where
  factories : List NRAttributeFactory
  next_ : ℕ → Option ℕ
  first_ : Option ℕ
  asserted : Bool

namespace FactoryList

def new : FactoryList := ⟨[], fun _ => none, none, false⟩

/-- How the walk over the list ends. -/
inductive Found
  | identical
  | conflict
  | absent (last : Option ℕ)
  deriving DecidableEq

/-- The walk from `i`; `none` if it takes too long or meets what is no factory. -/
def search (r : FactoryList) (baby : NRAttributeFactory) :
    ℕ → Option ℕ → Option ℕ → Option Found
  | _, none, last => some (.absent last)
  | 0, some _, _ => none
  | fuel + 1, some i, _ =>
    match r.factories[i]? with
    | none => none
    | some f =>
      if baby.key_ = f.key_ then some (if baby.type_ = f.type_ then .identical else .conflict)
      else search r baby fuel (r.next_ i) (some i)

/-- The end of the walk, for the factory with number `n`. -/
def enlist (r : FactoryList) (n : ℕ) : Found → FactoryList
  | .identical => r
  | .conflict => { r with asserted := true }
  | .absent none => { r with first_ := some n }
  | .absent (some i) =>
    { r with next_ := Function.update r.next_ i r.first_, first_ := some n }

/-- A walk over more factories than there are would never end. -/
def verify_unique (r : FactoryList) (n : ℕ) (baby : NRAttributeFactory) : Option FactoryList :=
  (r.search baby (r.factories.length + 1) r.first_ none).map (r.enlist n)

/-- A factory for a key and a type is constructed. -/
def construct (r : FactoryList) (key type : ℤ) : Option FactoryList :=
  let baby : NRAttributeFactory := ⟨BitVec.ofInt 16 key, BitVec.ofInt 8 type⟩
  let n := r.factories.length
  verify_unique
    { r with factories := r.factories ++ [baby], next_ := Function.update r.next_ n none } n baby

/-- Nothing happens after a failed assertion. -/
def step (r : FactoryList) (e : ℤ × ℤ) : Option (FactoryList × Unit) :=
  if r.asserted then some (r, ()) else (r.construct e.1 e.2).map fun r => (r, ())

/-- Each key is found once from the start of the list, and the assertion fails for two types of one
key only. -/
structure Sound (r : FactoryList) : Prop where
  enlisted : ∃ l, Reaches r.next_ none r.first_ l ∧
    (l.map fun i => (r.factories[i]?).map (·.key_)).Nodup ∧
    ∀ f ∈ r.factories, some f.key_ ∈ l.map fun i => (r.factories[i]?).map (·.key_)
  asserted : r.asserted = true ↔
    ∃ f ∈ r.factories, ∃ g ∈ r.factories, f.key_ = g.key_ ∧ f.type_ ≠ g.type_

/-- The list is the one factory that joined it last. -/
structure Last (r : FactoryList) (i : ℕ) (f : NRAttributeFactory) : Prop where
  factory : r.factories[i]? = some f
  first : r.first_ = some i
  next : r.next_ i = none

variable {r s : FactoryList} {i : ℕ} {f : NRAttributeFactory} {key type : ℤ}

theorem construct_first (hr : r.factories = []) (hf : r.first_ = none) (key type : ℤ) :
    ∃ s, r.construct key type = some s ∧ s.asserted = r.asserted ∧
      s.factories = [⟨BitVec.ofInt 16 key, BitVec.ofInt 8 type⟩] ∧
      s.Last 0 ⟨BitVec.ofInt 16 key, BitVec.ofInt 8 type⟩ := by
  refine ⟨{ r with
    factories := [⟨BitVec.ofInt 16 key, BitVec.ofInt 8 type⟩]
    next_ := Function.update r.next_ 0 none
    first_ := some 0 }, ?_, rfl, rfl, rfl, rfl, by simp⟩
  rw [construct, hr, List.length_nil, verify_unique]
  dsimp only
  rw [hf]
  rfl

theorem Last.search (h : r.Last i f) (baby : NRAttributeFactory) (fuel : ℕ) :
    r.search baby (fuel + 1) r.first_ none =
      some (if baby.key_ = f.key_ then (if baby.type_ = f.type_ then .identical else .conflict)
        else .absent (some i)) := by
  rw [h.first, FactoryList.search, h.factory]
  dsimp only
  rw [h.next]
  split_ifs <;> cases fuel <;> rfl

/-- What a constructor does to a list of one. -/
theorem Last.construct (h : r.Last i f) (key type : ℤ) :
    ∃ s, r.construct key type = some s ∧
      s.factories = r.factories ++ [⟨BitVec.ofInt 16 key, BitVec.ofInt 8 type⟩] ∧
      (BitVec.ofInt 16 key = f.key_ → s.Last i f ∧
        s.asserted = (r.asserted || BitVec.ofInt 8 type != f.type_)) ∧
      (BitVec.ofInt 16 key ≠ f.key_ → s.asserted = r.asserted ∧
        s.Last r.factories.length ⟨BitVec.ofInt 16 key, BitVec.ofInt 8 type⟩) := by
  obtain ⟨hlt, -⟩ := List.getElem?_eq_some_iff.mp h.factory
  rw [FactoryList.construct]
  generalize hbaby : (⟨BitVec.ofInt 16 key, BitVec.ofInt 8 type⟩ : NRAttributeFactory) = baby
  have hkey : BitVec.ofInt 16 key = baby.key_ := by rw [← hbaby]
  have htype : BitVec.ofInt 8 type = baby.type_ := by rw [← hbaby]
  rw [hkey, htype]
  generalize hr : FactoryList.mk (r.factories ++ [baby])
    (Function.update r.next_ r.factories.length none) r.first_ r.asserted = r'
  have hlast : r'.Last i f := by
    rw [← hr]
    refine ⟨?_, h.first, ?_⟩
    · change (r.factories ++ [baby])[i]? = some f
      rw [List.getElem?_append_left hlt]
      exact h.factory
    · change Function.update r.next_ r.factories.length none i = none
      rw [Function.update_of_ne hlt.ne]
      exact h.next
  have hfac : r'.factories = r.factories ++ [baby] := by rw [← hr]
  have hnew : r'.next_ r.factories.length = none := by
    rw [← hr]
    exact Function.update_self _ _ _
  have has : r'.asserted = r.asserted := by rw [← hr]
  rw [verify_unique, hlast.search, Option.map_some]
  refine ⟨_, rfl, ?_, fun he => ?_, fun hne => ?_⟩
  · split_ifs <;> exact hfac
  · rw [if_pos he]
    by_cases ht : baby.type_ = f.type_
    · rw [if_pos ht]
      exact ⟨hlast, by simp [enlist, has, ht]⟩
    · rw [if_neg ht]
      exact ⟨⟨hlast.factory, hlast.first, hlast.next⟩, by simp [enlist, ht]⟩
  · rw [if_neg hne]
    refine ⟨has, ?_, rfl, ?_⟩
    · change r'.factories[r.factories.length]? = some baby
      rw [hfac]
      exact List.getElem?_concat_length
    · -- the old last factory is made to point at itself, and the new one points at nothing
      change Function.update r'.next_ i r'.first_ r.factories.length = none
      rw [Function.update_of_ne hlt.ne']
      exact hnew

theorem step_construct (ha : r.asserted = false) (e : ℤ × ℤ) :
    r.step e = (r.construct e.1 e.2).map fun r => (r, ()) := by
  rw [step, ha]
  rfl

/-- Every constructor returns, but the list never holds more than one factory. -/
theorem run_last (es : List (ℤ × ℤ)) :
    Machine.Always step (fun r => (r.factories = [] ∧ r.first_ = none) ∨ ∃ i f, r.Last i f) new es := by
  refine (@Machine.always_iff _ _ _ step (fun _ _ => True) _ _ (fun _ h => h) (fun r e h _ => ?_)
    (fun _ _ _ _ _ h => absurd trivial h) _ (.inl ⟨rfl, rfl⟩) es).mpr (Machine.admits_true step new es)
  cases ha : r.asserted with
  | true => exact ⟨r, (), by rw [step, ha]; rfl, h⟩
  | false =>
    rw [step_construct ha]
    rcases h with ⟨hr, hf⟩ | ⟨i, f, h⟩
    · obtain ⟨s, hs, -, -, hlast⟩ := construct_first hr hf e.1 e.2
      exact ⟨s, (), by rw [hs]; rfl, .inr ⟨_, _, hlast⟩⟩
    · obtain ⟨s, hs, -, hsame, hother⟩ := h.construct e.1 e.2
      refine ⟨s, (), by rw [hs]; rfl, .inr ?_⟩
      by_cases hk : BitVec.ofInt 16 e.1 = f.key_
      · exact ⟨_, _, (hsame hk).1⟩
      · exact ⟨_, _, (hother hk).2⟩

/-- All factories have the key of the one in the list. -/
structure OneKey (r : FactoryList) (i : ℕ) (f : NRAttributeFactory) : Prop where
  last : r.Last i f
  keys : ∀ g ∈ r.factories, g.key_ = f.key_
  asserted : r.asserted = true ↔ ∃ g ∈ r.factories, g.type_ ≠ f.type_

theorem Last.reaches (h : r.Last i f) : Reaches r.next_ none r.first_ [i] := ⟨h.first, h.next⟩

theorem OneKey.sound (h : r.OneKey i f) : r.Sound := by
  have hmem : f ∈ r.factories := List.mem_of_getElem? h.last.factory
  refine ⟨⟨[i], h.last.reaches, List.nodup_singleton _, fun g hg => ?_⟩, h.asserted.trans ?_⟩
  · rw [h.keys g hg]
    simp [h.last.factory]
  · constructor
    · rintro ⟨g, hg, hne⟩
      exact ⟨g, hg, f, hmem, h.keys g hg, hne⟩
    · rintro ⟨g, hg, g', hg', -, hne⟩
      by_cases ht : g.type_ = f.type_
      · exact ⟨g', hg', fun he => hne (ht.trans he.symm)⟩
      · exact ⟨g, hg, ht⟩

theorem sound_new : new.Sound :=
  ⟨⟨[], rfl, List.nodup_nil, fun _ hf => absurd hf List.not_mem_nil⟩,
    iff_of_false Bool.false_ne_true fun ⟨_, hf, _⟩ => absurd hf List.not_mem_nil⟩

/-- The walk from the start of a list of one. -/
theorem Last.keys (h : r.Last i f) (hs : r.Sound) : ∀ g ∈ r.factories, g.key_ = f.key_ := by
  intro g hg
  obtain ⟨l, hl, -, hkeys⟩ := hs.enlisted
  have hone : l = [i] := by
    cases l with
    | nil => exact absurd (h.first.symm.trans hl) (Option.some_ne_none i)
    | cons a l =>
      obtain ⟨ha, hl⟩ := hl
      obtain rfl := Option.some.inj (h.first.symm.trans ha)
      rw [h.next] at hl
      cases l with
      | nil => rfl
      | cons b l => exact absurd hl.1.symm (Option.some_ne_none b)
  subst hone
  have hmem := hkeys g hg
  simpa [h.factory] using hmem

/-- The list is right in exactly the runs in which every factory has the same key, up to the first
failed assertion. -/
theorem run_findable (es : List (ℤ × ℤ)) :
    Machine.Always step Sound new es ↔ Machine.Admits step (fun r e => r.asserted = true ∨
      ∀ f ∈ r.factories, f.key_ = BitVec.ofInt 16 e.1) new es := by
  refine Machine.always_iff (I := fun r => r = new ∨ ∃ i f, r.OneKey i f) ?_ ?_ ?_ (.inl rfl) es
  · rintro r (rfl | ⟨i, f, h⟩)
    · exact sound_new
    · exact h.sound
  · intro r e h hok
    cases ha : r.asserted with
    | true => exact ⟨r, (), by rw [step, ha]; rfl, h⟩
    | false =>
      rw [step_construct ha]
      rcases h with rfl | ⟨i, f, h⟩
      · obtain ⟨s, hs, has, hfac, hlast⟩ := construct_first (r := new) rfl rfl e.1 e.2
        refine ⟨s, (), by rw [hs]; rfl, .inr ⟨_, _, hlast, fun g hg => ?_, ?_⟩⟩
        · rw [hfac, List.mem_singleton] at hg
          rw [hg]
        · rw [has, hfac]
          simp [new]
      · obtain ⟨s, hs, hfac, hsame, -⟩ := h.last.construct e.1 e.2
        have hkey : BitVec.ofInt 16 e.1 = f.key_ := by
          rw [ha] at hok
          exact (hok.resolve_left Bool.false_ne_true f (List.mem_of_getElem? h.last.factory)).symm
        obtain ⟨hlast, has⟩ := hsame hkey
        refine ⟨s, (), by rw [hs]; rfl, .inr ⟨i, f, hlast, fun g hg => ?_, ?_⟩⟩
        · rw [hfac, List.mem_append, List.mem_singleton] at hg
          rcases hg with hg | rfl
          · exact h.keys g hg
          · exact hkey
        · have hold := h.asserted
          rw [ha] at hold
          have hnone : ∀ g ∈ r.factories, g.type_ = f.type_ := fun g hg => by
            by_contra hne
            exact Bool.false_ne_true (hold.mpr ⟨g, hg, hne⟩)
          rw [has, ha, hfac]
          simp only [Bool.false_or, bne_iff_ne, ne_eq, List.mem_append, List.mem_singleton]
          constructor
          · exact fun hne => ⟨_, .inr rfl, hne⟩
          · rintro ⟨g, hg | rfl, hne⟩
            · exact absurd (hnone g hg) hne
            · exact hne
  · intro r e s o h hok hs hsound
    obtain ⟨ha, hne⟩ := not_or.mp hok
    rw [step_construct (Bool.eq_false_of_not_eq_true ha)] at hs
    obtain ⟨u, hu, hpair⟩ := Option.map_eq_some_iff.mp hs
    obtain ⟨rfl, -⟩ := Prod.mk.inj hpair
    rcases h with rfl | ⟨i, f, h⟩
    · exact hne fun f hf => absurd hf List.not_mem_nil
    · obtain ⟨u', hu', hfac, -, hother⟩ := h.last.construct e.1 e.2
      obtain rfl := Option.some.inj (hu.symm.trans hu')
      have hkey : BitVec.ofInt 16 e.1 ≠ f.key_ := fun he =>
        hne fun g hg => (h.keys g hg).trans he.symm
      have hall := (hother hkey).2.keys hsound f (by
        rw [hfac]
        exact List.mem_append_left _ (List.mem_of_getElem? h.last.factory))
      exact hkey hall.symm

/-- Two keys: the first factory is lost from the list, and points at itself. -/
theorem sound_of_two : ∃ s, Machine.run step new [(1, 0), (2, 0)] = some (s, [(), ()]) ∧
    s.first_ = some 1 ∧ s.next_ 1 = none ∧ s.next_ 0 = some 0 ∧ ¬ s.Sound := by
  refine ⟨_, rfl, rfl, rfl, rfl, fun h => ?_⟩
  have hkeys := Last.keys (i := 1) (f := ⟨2, 0⟩) ⟨rfl, rfl, rfl⟩ h
  exact absurd (hkeys ⟨1, 0⟩ (by decide)) (by decide)

end FactoryList

end Ns2
