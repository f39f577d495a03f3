import Ns2.Mac.WirelessChannel
import Ns2.Lib.Machine

/-! The wireless channel's list over whole runs: it is sorted by the first packet and kept sorted
as the nodes move, so that a packet finds the nodes around its sender by two scans. -/

namespace Ns2

namespace WirelessChannel

variable {w w' : WirelessChannel} {L M R l : List ℕ} {a m n q mn : ℕ} {t : Option ℕ}

/-- The walk ends at the last node before one that fails the test. -/
theorem walk_eq {link : ℕ → Option ℕ} {test : ℕ → Bool} {tmp fuel : ℕ}
    (hlink : ∀ pre a post, tmp :: M = pre ++ a :: post → link a = (post ++ R).head?)
    (hM : ∀ a ∈ M, test a = true) (hR : ∀ a, R.head? = some a → test a = false)
    (hfuel : M.length < fuel) : walk link test fuel tmp = (tmp :: M).getLast? := by
  induction M generalizing tmp fuel with
  | nil =>
    obtain ⟨fuel, rfl⟩ : ∃ k, fuel = k + 1 := ⟨fuel - 1, by simp at hfuel; omega⟩
    have hnext : link tmp = R.head? := hlink [] tmp [] rfl
    rw [walk, hnext]
    cases hhead : R.head? with
    | none => rfl
    | some n => simp [hR n hhead]
  | cons b M ih =>
    obtain ⟨fuel, rfl⟩ : ∃ k, fuel = k + 1 := ⟨fuel - 1, by simp at hfuel; omega⟩
    have hnext : link tmp = some b := hlink [] tmp (b :: M) rfl
    have hrest := @ih b fuel (fun pre a post he => hlink (tmp :: pre) a post (by simp [he]))
      (fun x hx => hM x (List.mem_cons_of_mem b hx)) (by simpa using hfuel)
    rw [walk, hnext]
    simp only [hM b List.mem_cons_self, if_true, List.getLast?_cons_cons]
    exact hrest

/-- One round of the sort on the list: a node that was exchanged is not compared again. -/
def sweep (x : ℕ → ℚ) : List ℕ → List ℕ × Bool
  | [] => ([], false)
  | [m] => ([m], false)
  | m :: q :: rest =>
    if x m > x q then (q :: m :: (sweep x rest).1, true)
    else (m :: (sweep x (q :: rest)).1, (sweep x (q :: rest)).2)

/-- The pairs in the wrong order. -/
def inversions (x : ℕ → ℚ) : List ℕ → ℕ
  | [] => 0
  | a :: l => l.countP (fun b => x a > x b) + inversions x l

theorem sweep_perm (x : ℕ → ℚ) (l : List ℕ) : (sweep x l).1.Perm l := by
  induction l using sweep.induct x with
  | case1 => exact .refl _
  | case2 m => exact .refl _
  | case3 m q rest h ih =>
    rw [sweep, if_pos h]
    exact (List.Perm.swap m q _).trans ((ih.cons q).cons m)
  | case4 m q rest h ih =>
    rw [sweep, if_neg h]
    exact ih.cons m

theorem inversions_le (x : ℕ → ℚ) (l : List ℕ) : inversions x l ≤ l.length * l.length := by
  induction l with
  | nil => exact le_rfl
  | cons a l ih =>
    have hcount : l.countP (fun b => x a > x b) ≤ l.length := List.countP_le_length
    rw [inversions, List.length_cons]
    nlinarith

/-- A round never adds an inversion, and takes one away if it exchanges nodes. -/
theorem inversions_sweep (x : ℕ → ℚ) (l : List ℕ) :
    inversions x (sweep x l).1 ≤ inversions x l ∧
      ((sweep x l).2 = true → inversions x (sweep x l).1 < inversions x l) := by
  induction l using sweep.induct x with
  | case1 => exact ⟨le_rfl, by simp [sweep]⟩
  | case2 m => exact ⟨le_rfl, by simp [sweep]⟩
  | case3 m q rest h ih =>
    have hperm := sweep_perm x rest
    have hm := hperm.countP_eq (fun b => x m > x b)
    have hq := hperm.countP_eq (fun b => x q > x b)
    have hqm : ¬ x q > x m := not_lt.mpr h.le
    rw [sweep, if_pos h]
    simp only [inversions, List.countP_cons, hm, hq, h, hqm, decide_true, decide_false, if_true]
    have := ih.1
    constructor
    · simp only [Bool.false_eq_true, if_false]
      omega
    · intro _
      simp only [Bool.false_eq_true, if_false]
      omega
  | case4 m q rest h ih =>
    have hperm := (sweep_perm x (q :: rest)).countP_eq (fun b => x m > x b)
    rw [sweep, if_neg h, inversions, inversions, hperm]
    exact ⟨by have := ih.1; omega, fun hflag => by have := ih.2 hflag; omega⟩

/-- A round that exchanges nothing shows that the list is sorted. -/
theorem sorted_of_sweep (x : ℕ → ℚ) (l : List ℕ) (h : (sweep x l).2 = false) :
    (sweep x l).1 = l ∧ l.Pairwise fun a b => x a ≤ x b := by
  induction l using sweep.induct x with
  | case1 => exact ⟨rfl, .nil⟩
  | case2 m => exact ⟨rfl, List.pairwise_singleton _ m⟩
  | case3 m q rest hgt ih =>
    rw [sweep, if_pos hgt] at h
    simp at h
  | case4 m q rest hle ih =>
    rw [sweep, if_neg hle] at h ⊢
    obtain ⟨he, hrest⟩ := ih h
    rw [he]
    refine ⟨rfl, List.pairwise_cons.mpr ⟨fun b hb => ?_, hrest⟩⟩
    rcases List.mem_cons.mp hb with rfl | hb
    · exact not_lt.mp hle
    · exact (not_lt.mp hle).trans (List.rel_of_pairwise_cons hrest hb)

/-- One round of the sort over the rest of the list. -/
theorem pass_eq {fuel : ℕ} (flag : Bool) (h : w.Links (L ++ M)) (hfuel : M.length < fuel) :
    ∃ w', pass fuel w M.head? flag = some (w', flag || (sweep w.X M).2) ∧
      w'.Links (L ++ (sweep w.X M).1) ∧ Kept w w' := by
  generalize hx : w.X = x
  induction M using sweep.induct x generalizing w L fuel flag with
  | case1 =>
    obtain ⟨fuel, rfl⟩ : ∃ k, fuel = k + 1 := ⟨fuel - 1, by simp at hfuel; omega⟩
    exact ⟨w, by simp [pass, sweep], h, rfl, rfl, rfl, rfl⟩
  | case2 m =>
    obtain ⟨fuel, rfl⟩ : ∃ k, fuel = k + 2 := ⟨fuel - 2, by simp at hfuel; omega⟩
    have hnext : w.nextX_ m = none := h.next
    exact ⟨w, by simp [pass, sweep, hnext], h, rfl, rfl, rfl, rfl⟩
  | case3 m q rest hgt ih =>
    obtain ⟨fuel, rfl⟩ : ∃ k, fuel = k + 1 := ⟨fuel - 1, by simp at hfuel; omega⟩
    have hnext : w.nextX_ m = some q := h.next
    have hswap := h.swap
    have hlinks : (w.swap m q).Links ((L ++ [q, m]) ++ rest) := by simpa using hswap
    have hkept := swap_kept w m q
    have hrest : (w.swap m q).nextX_ m = rest.head? :=
      Links.next (L := L ++ [q]) (R := rest) (by simpa using hswap)
    obtain ⟨w', hpass, hl, hk⟩ := @ih (w.swap m q) (L ++ [q, m]) fuel true hlinks
      (by simp at hfuel; omega) (hkept.X.trans hx)
    refine ⟨w', ?_, ?_, hkept.trans hk⟩
    · rw [List.head?_cons, pass, hnext]
      simp only [hx, hgt, if_true, hrest, hpass, sweep]
      simp
    · rw [sweep, if_pos hgt]
      simpa using hl
  | case4 m q rest hle ih =>
    obtain ⟨fuel, rfl⟩ : ∃ k, fuel = k + 1 := ⟨fuel - 1, by simp at hfuel; omega⟩
    have hnext : w.nextX_ m = some q := h.next
    obtain ⟨w', hpass, hl, hk⟩ := @ih w (L ++ [m]) fuel flag (by simpa using h)
      (by simpa using hfuel) hx
    refine ⟨w', ?_, ?_, hk⟩
    · rw [List.head?_cons, pass, hnext]
      simp only [hx, hle, if_false]
      rw [show some q = (q :: rest).head? from rfl, hpass, sweep, if_neg hle]
    · rw [sweep, if_neg hle]
      simpa using hl

/-- By x position, as the list is once it has been sorted. -/
def Ascends (x : ℕ → ℚ) (l : List ℕ) : Prop := l.Pairwise fun a b => x a ≤ x b

/-- The rounds come to an end. -/
theorem sortLoop_eq (fuel : ℕ) (h : w.Links l) (hcount : l.length ≤ w.numNodes_)
    (hfuel : inversions w.X l < fuel) :
    ∃ w' l', sortLoop fuel w = some w' ∧ w'.Links l' ∧ l'.Perm l ∧ Ascends w.X l' ∧ Kept w w' := by
  induction fuel generalizing w l with
  | zero => cases hfuel
  | succ fuel ih =>
    obtain ⟨w', hpass, hl, hk⟩ := pass_eq (L := []) false h
      (Nat.lt_succ_of_le hcount)
    have hperm := sweep_perm w.X l
    have hinv := inversions_sweep w.X l
    rw [List.nil_append, Bool.false_or] at *
    cases hflag : (sweep w.X l).2 with
    | false =>
      obtain ⟨he, hsorted⟩ := sorted_of_sweep w.X l hflag
      rw [he] at hl
      refine ⟨w', l, ?_, hl, .refl l, hsorted, hk⟩
      rw [sortLoop, h.head, hpass, hflag]
      rfl
    | true =>
      obtain ⟨v, l', hloop, hlinks, hp, hs, hk'⟩ := @ih w' (sweep w.X l).1 hl
        (by rw [hperm.length_eq, hk.numNodes_]; exact hcount)
        (by rw [hk.X]; have := hinv.2 hflag; omega)
      rw [hk.X] at hs
      refine ⟨v, l', ?_, hlinks, hp.trans hperm, hs, hk.trans hk'⟩
      rw [sortLoop, h.head, hpass, hflag]
      exact hloop

/-- The list holds `l`, and is in order once it has been sorted. -/
structure Holds (w : WirelessChannel) (l : List ℕ) : Prop where
  links : w.Links l
  count : w.numNodes_ = l.length
  ascends : w.sorted_ = true → Ascends w.X l

theorem sortLists_eq (h : w.Links l) (hcount : w.numNodes_ = l.length) :
    ∃ w' l', w.sortLists = some w' ∧ w'.Holds l' ∧ l'.Perm l ∧ w'.sorted_ = true ∧ w'.X = w.X ∧
      w'.Y = w.Y := by
  have hlinks : Links { w with sorted_ := true } l := h
  have hle := inversions_le w.X l
  obtain ⟨w', l', hloop, hl, hp, hs, hk⟩ := sortLoop_eq
    (w.numNodes_ * w.numNodes_ + 1) hlinks hcount.ge (by rw [hcount]; exact Nat.lt_succ_of_le hle)
  have hX : w'.X = w.X := hk.X
  refine ⟨w', l', hloop, ⟨hl, ?_, fun _ => by rw [hX]; exact hs⟩, hp, hk.sorted_, hX, hk.Y⟩
  rw [hk.numNodes_, hp.length_eq]
  exact hcount

theorem ascends_insert {x : ℕ → ℚ} (h : Ascends x (L ++ R))
    (hp : ∀ p, L.getLast? = some p → x p ≤ x mn) (hn : ∀ n, R.head? = some n → x mn ≤ x n) :
    Ascends x (L ++ mn :: R) := by
  obtain ⟨hL, hR, hLR⟩ := List.pairwise_append.mp h
  have hbelow : ∀ a ∈ L, x a ≤ x mn := by
    intro a ha
    obtain ⟨L', p, rfl⟩ : ∃ L' p, L = L' ++ [p] :=
      ⟨_, _, (List.dropLast_append_getLast (List.ne_nil_of_mem ha)).symm⟩
    have hlast : x p ≤ x mn := hp p (by simp)
    rcases List.mem_append.mp ha with ha | ha
    · exact ((List.pairwise_append.mp hL).2.2 a ha p (by simp)).trans hlast
    · obtain rfl := List.mem_singleton.mp ha
      exact hlast
  have habove : ∀ b ∈ R, x mn ≤ x b := by
    intro b hb
    cases R with
    | nil => cases hb
    | cons n R =>
      rcases List.mem_cons.mp hb with rfl | hb
      · exact hn b rfl
      · exact (hn n rfl).trans (List.rel_of_pairwise_cons hR hb)
  refine List.pairwise_append.mpr ⟨hL, List.pairwise_cons.mpr ⟨habove, hR⟩, fun a ha b hb => ?_⟩
  rcases List.mem_cons.mp hb with rfl | hb
  · exact hbelow a ha
  · exact hLR a ha b hb

/-- A node that moved to the right is put behind the nodes that are left of it now. -/
theorem moveRight (h : w.Links (L ++ R)) (hmn : mn ∉ L ++ R) (hnext : w.nextX_ mn = R.head?)
    (hcount : (L ++ R).length < w.numNodes_) (hs : Ascends w.X (L ++ R))
    (hfirst : ∃ n, R.head? = some n ∧ w.X n < w.X mn) :
    ∃ w' l', (walk w.nextX_ (fun n => w.X n < w.X mn) (w.numNodes_ + 1) mn).map
        (w.insertAfter mn) = some w' ∧
      w'.Links l' ∧ l'.Perm (L ++ mn :: R) ∧ Ascends w.X l' ∧ Kept w w' := by
  let test : ℕ → Bool := fun n => w.X n < w.X mn
  obtain ⟨R₁, R₂, rfl, hR₁, hR₂⟩ : ∃ R₁ R₂, R = R₁ ++ R₂ ∧ (∀ a ∈ R₁, test a = true) ∧
      ∀ a, R₂.head? = some a → test a = false :=
    ⟨R.takeWhile test, R.dropWhile test, List.takeWhile_append_dropWhile.symm,
      fun a ha => List.mem_takeWhile_imp ha, fun a ha => by
        have := List.head?_dropWhile_not test R
        rw [ha] at this
        simpa using this⟩
  obtain ⟨tmp, htmp⟩ : ∃ tmp, R₁.getLast? = some tmp := by
    obtain ⟨n, hn, hlt⟩ := hfirst
    cases R₁ with
    | nil => exact absurd hlt (of_decide_eq_false (hR₂ n hn))
    | cons b R₁ => exact ⟨_, List.getLast?_cons⟩
  have hwalk : walk w.nextX_ test (w.numNodes_ + 1) mn = (mn :: R₁).getLast? := by
    apply walk_eq (R := R₂) _ hR₁ hR₂
    · simp at hcount
      omega
    · intro pre a post he
      cases pre with
      | nil =>
        obtain ⟨rfl, rfl⟩ := List.cons.inj he
        exact hnext
      | cons b pre =>
        obtain ⟨rfl, rfl⟩ := List.cons.inj he
        exact Links.next (L := L ++ pre) (by simpa using h)
  have hlast : (mn :: R₁).getLast? = some tmp := by
    cases R₁ with
    | nil => cases htmp
    | cons b R₁ => rw [List.getLast?_cons_cons, htmp]
  have hend : (L ++ R₁).getLast? = some tmp := by rw [List.getLast?_append, htmp]; rfl
  obtain ⟨hlinks, hk⟩ := Links.insertAfter (L := L ++ R₁) (R := R₂) (by simpa using h)
    (by simpa using hmn) hend
  refine ⟨_, _, by rw [show (fun n => decide (w.X n < w.X mn)) = test from rfl, hwalk, hlast]; rfl,
    hlinks, ?_, ascends_insert (by simpa using hs) ?_ ?_, hk⟩
  · rw [List.append_assoc]
    exact (List.perm_middle.append_left L)
  · intro p hp
    obtain rfl := Option.some.inj (hend.symm.trans hp)
    exact (of_decide_eq_true (hR₁ _ (List.mem_of_getLast? htmp))).le
  · intro n hn
    exact not_lt.mp (of_decide_eq_false (hR₂ n hn))

/-- A node that moved to the left is put before the nodes that are right of it now. -/
theorem moveLeft (h : w.Links (L ++ R)) (hmn : mn ∉ L ++ R) (hprev : w.prevX_ mn = L.getLast?)
    (hcount : (L ++ R).length < w.numNodes_) (hs : Ascends w.X (L ++ R))
    (hlast : ∃ p, L.getLast? = some p ∧ w.X mn < w.X p) :
    ∃ w' l', (walk w.prevX_ (fun n => w.X n > w.X mn) (w.numNodes_ + 1) mn).map
        (w.insertBefore mn) = some w' ∧
      w'.Links l' ∧ l'.Perm (L ++ mn :: R) ∧ Ascends w.X l' ∧ Kept w w' := by
  let test : ℕ → Bool := fun n => w.X n > w.X mn
  -- the nodes before it, from the nearest
  obtain ⟨M, N, rfl, hM, hN⟩ : ∃ M N, L = N.reverse ++ M.reverse ∧ (∀ a ∈ M, test a = true) ∧
      ∀ a, N.head? = some a → test a = false :=
    ⟨L.reverse.takeWhile test, L.reverse.dropWhile test, by
      rw [← List.reverse_append, List.takeWhile_append_dropWhile, List.reverse_reverse],
      fun a ha => List.mem_takeWhile_imp ha, fun a ha => by
        have := List.head?_dropWhile_not test L.reverse
        rw [ha] at this
        simpa using this⟩
  obtain ⟨tmp, htmp⟩ : ∃ tmp, M.getLast? = some tmp := by
    obtain ⟨p, hp, hlt⟩ := hlast
    cases M with
    | nil => exact absurd hlt (of_decide_eq_false (hN p (by simpa using hp)))
    | cons b M => exact ⟨_, List.getLast?_cons⟩
  have hwalk : walk w.prevX_ test (w.numNodes_ + 1) mn = (mn :: M).getLast? := by
    apply walk_eq (R := N) _ hM hN
    · simp at hcount
      omega
    · intro pre a post he
      cases pre with
      | nil =>
        obtain ⟨rfl, rfl⟩ := List.cons.inj he
        rw [hprev, ← List.reverse_append, List.getLast?_reverse]
      | cons b pre =>
        obtain ⟨rfl, rfl⟩ := List.cons.inj he
        have := Links.prev (L := N.reverse ++ post.reverse) (a := a) (R := pre.reverse ++ R)
          (by simpa using h)
        rwa [← List.reverse_append, List.getLast?_reverse] at this
  have hend : (mn :: M).getLast? = some tmp := by
    cases M with
    | nil => cases htmp
    | cons b M => rw [List.getLast?_cons_cons, htmp]
  have hfirst : (M.reverse ++ R).head? = some tmp := by
    rw [List.head?_append, List.head?_reverse, htmp]
    rfl
  obtain ⟨hlinks, hk⟩ := Links.insertBefore (L := N.reverse) (R := M.reverse ++ R)
    (by simpa using h) (by simpa using hmn) hfirst
  refine ⟨_, _, by rw [show (fun n => decide (w.X n > w.X mn)) = test from rfl, hwalk, hend]; rfl,
    hlinks, ?_, ascends_insert (by simpa using hs) ?_ ?_, hk⟩
  · rw [List.append_assoc]
    exact (List.perm_middle.symm.append_left N.reverse)
  · intro p hp
    rw [List.getLast?_reverse] at hp
    exact not_lt.mp (of_decide_eq_false (hN p hp))
  · intro n hn
    obtain rfl := Option.some.inj (hfirst.symm.trans hn)
    exact (of_decide_eq_true (hM _ (List.mem_of_getLast? htmp))).le

theorem update_of_other {x : ℕ → ℚ} {v : ℚ} (h : (L ++ mn :: R).Nodup) :
    Ascends (Function.update x mn v) (L ++ R) ↔ Ascends x (L ++ R) := by
  rw [List.nodup_middle] at h
  have hne : ∀ a ∈ L ++ R, a ≠ mn := fun a ha he => (List.nodup_cons.mp h).1 (he ▸ ha)
  refine List.Pairwise.iff_of_mem fun {a b} ha hb => ?_
  rw [Function.update_of_ne (hne a ha), Function.update_of_ne (hne b hb)]

/-- A node that moved gets its place in the list. -/
theorem updateNodesList_eq (oldX : ℚ) (h : w.Links l) (hcount : w.numNodes_ = l.length)
    (hmn : mn ∈ l) (hs : w.sorted_ = true → Ascends (Function.update w.X mn oldX) l)
    (hmoved : oldX ≠ w.X mn) :
    ∃ w' l', w.updateNodesList mn oldX = some w' ∧ w'.Holds l' ∧ l'.Perm l ∧ w'.sorted_ = true ∧
      w'.X = w.X ∧ w'.Y = w.Y := by
  unfold updateNodesList
  cases hsorted : w.sorted_ with
  | false => exact sortLists_eq h hcount
  | true =>
    obtain ⟨L, R, rfl⟩ := List.append_of_mem hmn
    have hold := hs hsorted
    have hnd := h.nodup
    have hLR : Ascends w.X (L ++ R) := by
      rw [← update_of_other hnd (v := oldX)]
      exact List.Pairwise.sublist (by simp) hold
    have hnotin : mn ∉ L ++ R := by
      rw [List.nodup_middle] at hnd
      exact (List.nodup_cons.mp hnd).1
    -- the old place was right for the old position
    have hleft : ∀ p ∈ L, w.X p ≤ oldX := by
      intro p hp
      have := (List.pairwise_append.mp hold).2.2 p hp mn List.mem_cons_self
      have hne : p ≠ mn := fun he => hnotin (by simp [← he, hp])
      rwa [Function.update_self, Function.update_of_ne hne] at this
    have hright : ∀ n ∈ R, oldX ≤ w.X n := by
      intro n hn
      have := List.rel_of_pairwise_cons (List.pairwise_append.mp hold).2.1 hn
      have hne : n ≠ mn := fun he => hnotin (by simp [← he, hn])
      rwa [Function.update_self, Function.update_of_ne hne] at this
    rcases h.detach with ⟨hskip, hn, hp⟩ | ⟨w', hdet, hl, hnext, hprev, hk, hbad⟩
    · refine ⟨w, _, by simp [hskip], ⟨h, hcount, fun _ => ascends_insert hLR hp hn⟩, .refl _,
        hsorted, rfl, rfl⟩
    · simp only [Bool.not_true, Bool.false_eq_true, if_false, hdet]
      have hlen : (L ++ R).length < w'.numNodes_ := by
        rw [hk.numNodes_, hcount]
        simp
      have hX := hk.X
      have hfinish : ∀ {v l'}, v.Links l' → l'.Perm (L ++ mn :: R) → Ascends w'.X l' → Kept w' v →
          v.Holds l' ∧ l'.Perm (L ++ mn :: R) ∧ v.sorted_ = true ∧ v.X = w.X ∧ v.Y = w.Y := by
        intro v l' hv hp ha hkv
        have hwv := hk.trans hkv
        refine ⟨⟨hv, ?_, fun _ => by rw [hkv.X]; exact ha⟩, hp, hwv.sorted_.trans hsorted, hwv.X,
          hwv.Y⟩
        rw [hwv.numNodes_, hcount, hp.length_eq]
      rw [← hX] at hLR hbad
      split_ifs with hgt
      · obtain ⟨v, l', hv, hlv, hp, ha, hkv⟩ := moveRight hl hnotin hnext hlen hLR <| by
          rcases hbad with hbad | ⟨p, hp, hlt⟩
          · exact hbad
          · have := hleft p (List.mem_of_getLast? hp)
            rw [hX] at hlt hgt
            linarith
        exact ⟨v, l', hv, hfinish hlv hp ha hkv⟩
      · obtain ⟨v, l', hv, hlv, hp, ha, hkv⟩ := moveLeft hl hnotin hprev hlen hLR <| by
          rcases hbad with ⟨n, hn, hlt⟩ | hbad
          · have := hright n (List.mem_of_mem_head? hn)
            have hne := lt_of_le_of_ne (not_lt.mp hgt) (by rw [hX]; exact hmoved.symm)
            rw [hX] at hlt hne
            linarith
          · exact hbad
        exact ⟨v, l', hv, hfinish hlv hp ha hkv⟩

/-- The new positions of the nodes that are due. -/
def moveX (due : ℕ → Option (ℚ × ℚ)) (nodes : List ℕ) (x : ℕ → ℚ) (a : ℕ) : ℚ :=
  if a ∈ nodes then ((due a).map Prod.fst).getD (x a) else x a

def moveY (due : ℕ → Option (ℚ × ℚ)) (nodes : List ℕ) (y : ℕ → ℚ) (a : ℕ) : ℚ :=
  if a ∈ nodes then ((due a).map Prod.snd).getD (y a) else y a

theorem updatePosition_eq {x y : ℚ} (h : w.Holds l) (hmn : mn ∈ l) :
    ∃ w' l', w.updatePosition mn x y = some w' ∧ w'.Holds l' ∧ l'.Perm l ∧
      (w.sorted_ = true → w'.sorted_ = true) ∧ w'.X = Function.update w.X mn x ∧
      w'.Y = Function.update w.Y mn y := by
  unfold updatePosition
  by_cases hx : w.X mn = x
  · have hX : Function.update w.X mn x = w.X := by rw [← hx, Function.update_eq_self]
    refine ⟨_, l, if_neg (not_not.mpr hx), ⟨h.links, h.count, fun hs => ?_⟩, .refl l, id, rfl, rfl⟩
    show Ascends (Function.update w.X mn x) l
    rw [hX]
    exact h.ascends hs
  · obtain ⟨w', l', hu, hh, hp, hs, hX, hY⟩ := updateNodesList_eq
      (w := { w with X := Function.update w.X mn x, Y := Function.update w.Y mn y })
      (w.X mn) h.links h.count hmn
      (fun hs => by
        show Ascends (Function.update (Function.update w.X mn x) mn (w.X mn)) l
        rw [Function.update_idem, Function.update_eq_self]
        exact h.ascends hs)
      (by
        show w.X mn ≠ Function.update w.X mn x mn
        rwa [Function.update_self])
    exact ⟨w', l', (if_pos hx).trans hu, hh, hp, fun _ => hs, hX, hY⟩

theorem updateAll_eq (due : ℕ → Option (ℚ × ℚ)) {nodes : List ℕ} (h : w.Holds l)
    (hsub : ∀ a ∈ nodes, a ∈ l) :
    ∃ w' l', updateAll due nodes w = some w' ∧ w'.Holds l' ∧ l'.Perm l ∧
      (w.sorted_ = true → w'.sorted_ = true) ∧ w'.X = moveX due nodes w.X ∧
      w'.Y = moveY due nodes w.Y := by
  induction nodes generalizing w l with
  | nil =>
    exact ⟨w, l, rfl, h, .refl l, id, funext fun a => by simp [moveX],
      funext fun a => by simp [moveY]⟩
  | cons b nodes ih =>
    cases hdue : due b with
    | none =>
      obtain ⟨w', l', hu, hh, hp, hs, hX, hY⟩ := ih h fun a ha => hsub a (List.mem_cons_of_mem b ha)
      refine ⟨w', l', by rw [updateAll, hdue]; exact hu, hh, hp, hs, ?_, ?_⟩
      · rw [hX]
        funext a
        by_cases hab : a = b <;> simp [moveX, hab, hdue]
      · rw [hY]
        funext a
        by_cases hab : a = b <;> simp [moveY, hab, hdue]
    | some p =>
      obtain ⟨x, y⟩ := p
      obtain ⟨v, lv, hv, hvh, hvp, hvs, hvX, hvY⟩ := updatePosition_eq (x := x) (y := y) h
        (hsub b List.mem_cons_self)
      obtain ⟨w', l', hu, hh, hp, hs, hX, hY⟩ := ih hvh fun a ha =>
        hvp.mem_iff.mpr (hsub a (List.mem_cons_of_mem b ha))
      refine ⟨w', l', by rw [updateAll, hdue]; simp only [hv, Option.bind_some]; exact hu, hh,
        hp.trans hvp, fun hsorted => hs (hvs hsorted), ?_, ?_⟩
      · rw [hX, hvX]
        funext a
        by_cases hab : a = b
        · simp [moveX, hab, hdue]
        · simp [moveX, hab, Function.update_of_ne]
      · rw [hY, hvY]
        funext a
        by_cases hab : a = b
        · simp [moveY, hab, hdue]
        · simp [moveY, hab, Function.update_of_ne]

/-- What a scan collects along the links. -/
theorem collect_eq (link : ℕ → Option ℕ) (near inside : ℕ → Bool) (fuel : ℕ)
    (hlink : ∀ pre a post, l = pre ++ a :: post → link a = post.head?) (hfuel : l.length < fuel) :
    collect link near inside fuel l.head? = some ((l.takeWhile near).filter inside) := by
  induction l generalizing fuel with
  | nil =>
    obtain ⟨fuel, rfl⟩ : ∃ k, fuel = k + 1 := ⟨fuel - 1, by simp at hfuel; omega⟩
    rfl
  | cons b l ih =>
    obtain ⟨fuel, rfl⟩ : ∃ k, fuel = k + 1 := ⟨fuel - 1, by simp at hfuel; omega⟩
    have hrest := ih fuel (fun pre a post he => hlink (b :: pre) a post (by rw [he]; rfl))
      (by simpa using hfuel)
    rw [List.head?_cons, collect, hlink [] b l rfl, hrest]
    cases hnear : near b <;> cases hin : inside b <;> simp [hnear, hin]

/-- A list whose tests only get worse is cut where they fail. -/
theorem takeWhile_eq_filter (near : ℕ → Bool)
    (h : l.Pairwise fun a b => near b = true → near a = true) :
    l.takeWhile near = l.filter near := by
  induction l with
  | nil => rfl
  | cons b l ih =>
    obtain ⟨hb, hl⟩ := List.pairwise_cons.mp h
    cases hnear : near b with
    | true => rw [List.takeWhile_cons_of_pos hnear, List.filter_cons_of_pos hnear, ih hl]
    | false =>
      have hnone : l.filter near = [] := by
        refine List.filter_eq_nil_iff.mpr fun a ha hna => ?_
        rw [hb a ha hna] at hnear
        cases hnear
      rw [List.takeWhile_cons_of_neg (by simp [hnear]), List.filter_cons_of_neg (by simp [hnear]),
        hnone]

theorem reaches_of_links {link : ℕ → Option ℕ}
    (hlink : ∀ pre a post, l = pre ++ a :: post → link a = post.head?) :
    NextPointers.Reaches link none l.head? l := by
  induction l with
  | nil => rfl
  | cons b l ih =>
    refine ⟨rfl, ?_⟩
    rw [hlink [] b l rfl]
    exact ih fun pre a post he => hlink (b :: pre) a post (by rw [he]; rfl)

theorem Links.follow {fuel : ℕ} (h : w.Links l) (hfuel : l.length ≤ fuel) :
    NextPointers.follow w.nextX_ fuel w.xListHead_ = some l := by
  rw [h.head]
  refine NextPointers.follow_eq (reaches_of_links fun pre a post he => ?_) hfuel
  subst he
  exact h.next

/-- The new list after an update, and what the two scans find in it around the sender. -/
theorem getAffectedNodes_eq (due : ℕ → Option (ℚ × ℚ)) (radius : ℚ) (h : w.Holds l)
    (hsorted : w.sorted_ = true) (hmn : mn ∈ l) :
    ∃ w' L R, w'.Holds (L ++ mn :: R) ∧ (L ++ mn :: R).Perm l ∧ w'.sorted_ = true ∧
      w'.X = moveX due l w.X ∧ w'.Y = moveY due l w.Y ∧
      w.getAffectedNodes due mn radius = some (w',
        (((mn :: L.reverse).filter fun a => w'.X a ≥ w.X mn - radius).filter fun a =>
            w'.Y a ≥ w.Y mn - radius ∧ w'.Y a ≤ w.Y mn + radius) ++
          ((R.filter fun a => w'.X a ≤ w.X mn + radius).filter fun a =>
            w'.Y a ≥ w.Y mn - radius ∧ w'.Y a ≤ w.Y mn + radius)) := by
  obtain ⟨w', l', hu, hh, hp, hs, hX, hY⟩ := updateAll_eq due h fun a ha => ha
  obtain ⟨L, R, rfl⟩ := List.append_of_mem (hp.mem_iff.mpr hmn)
  have hasc := hh.ascends (hs hsorted)
  obtain ⟨hL, hR, hLR⟩ := List.pairwise_append.mp hasc
  have hcount := hh.count
  rw [List.length_append, List.length_cons] at hcount
  have hleft := collect_eq (l := mn :: L.reverse) w'.prevX_ (fun a => w'.X a ≥ w.X mn - radius)
    (fun a => w'.Y a ≥ w.Y mn - radius ∧ w'.Y a ≤ w.Y mn + radius) (w'.numNodes_ + 1)
    (fun pre a post he => by
      have hrev : L ++ mn :: R = post.reverse ++ a :: (pre.reverse ++ R) := by
        have := congrArg (fun l => l.reverse ++ R) he
        simpa using this
      have hprev := Links.prev (hrev ▸ hh.links)
      rwa [List.getLast?_reverse] at hprev)
    (by simp; omega)
  have hright := collect_eq (l := R) w'.nextX_ (fun a => w'.X a ≤ w.X mn + radius)
    (fun a => w'.Y a ≥ w.Y mn - radius ∧ w'.Y a ≤ w.Y mn + radius) (w'.numNodes_ + 1)
    (fun pre a post he => by
      subst he
      exact Links.next (L := L ++ mn :: pre) (by simpa using hh.links))
    (by omega)
  refine ⟨w', L, R, hh, hp, hs hsorted, hX, hY, ?_⟩
  rw [← takeWhile_eq_filter fun a => w'.X a ≥ w.X mn - radius,
    ← takeWhile_eq_filter fun a => w'.X a ≤ w.X mn + radius]
  · unfold getAffectedNodes
    rw [h.links.follow (by rw [h.count]; exact Nat.le_succ _)]
    simp only [Option.bind_some, if_neg (not_lt.mpr h.count.ge), hu]
    rw [show some mn = (mn :: L.reverse).head? from rfl, hleft, hh.links.next]
    simp only [Option.bind_some, hright, Option.map_some]
  · exact (List.pairwise_cons.mp hR).2.imp fun {a b} hab hb => by
      simp only [decide_eq_true_eq] at hb ⊢
      exact hab.trans hb
  · refine List.pairwise_cons.mpr ⟨fun b hb hnear => ?_, ?_⟩
    · have := hLR b (List.mem_reverse.mp hb) mn List.mem_cons_self
      simp only [decide_eq_true_eq, ge_iff_le] at hnear ⊢
      exact hnear.trans this
    · refine List.pairwise_reverse.mpr (hL.imp fun {a b} hab hb => ?_)
      simp only [decide_eq_true_eq, ge_iff_le] at hb ⊢
      exact hb.trans hab

inductive Input where
  | add (mn : ℕ) (x y : ℚ)
  | remove (mn : ℕ)
  | move (mn : ℕ) (x y : ℚ)
  | send (mn : ℕ) (radius : ℚ) (due : ℕ → Option (ℚ × ℚ))

def initial : WirelessChannel where
  numNodes_ := 0
  xListHead_ := none
  sorted_ := false
  nextX_ := fun _ => none
  prevX_ := fun _ => none
  X := fun _ => 0
  Y := fun _ => 0

/-- A step, and the nodes that receive a copy. A node has its position when it is added. -/
def step (w : WirelessChannel) : Input → Option (WirelessChannel × List ℕ)
  | .add mn x y =>
    (addNodeToList { w with X := Function.update w.X mn x, Y := Function.update w.Y mn y } mn).map
      fun w => (w, [])
  | .remove mn => (w.removeNodeFromList mn).map fun w => (w, [])
  | .move mn x y => (w.updatePosition mn x y).map fun w => (w, [])
  | .send mn radius due => w.sendUp due mn radius

def nodes (w : WirelessChannel) : List ℕ :=
  (NextPointers.follow w.nextX_ w.numNodes_ w.xListHead_).getD []

/-- The list does not look where it puts a new node: after the first packet, that has to be to the
right of the others. -/
def Allowed (w : WirelessChannel) : Input → Prop
  | .add mn x _ => mn ∉ w.nodes ∧ (w.sorted_ = true → ∀ a ∈ w.nodes, w.X a ≤ x)
  | .remove _ => w.nodes ≠ []
  | .move mn _ _ => mn ∈ w.nodes
  | .send mn _ _ => mn ∈ w.nodes

instance (w : WirelessChannel) : ∀ i, Decidable (w.Allowed i)
  | .add _ _ _ => inferInstanceAs (Decidable (_ ∧ _))
  | .remove _ => inferInstanceAs (Decidable (¬ _))
  | .move _ _ _ => inferInstanceAs (Decidable (_ ∈ _))
  | .send _ _ _ => inferInstanceAs (Decidable (_ ∈ _))

/-- The list without a node, which stays if it is the last. -/
def without (mn : ℕ) (l : List ℕ) : List ℕ := if l.getLast? = some mn then l else l.erase mn

theorem Holds.nodes (h : w.Holds l) : w.nodes = l := by
  unfold WirelessChannel.nodes
  rw [h.links.follow h.count.ge]
  rfl

theorem ascends_congr {x x' : ℕ → ℚ} (h : Ascends x l) (he : ∀ a ∈ l, x' a = x a) : Ascends x' l :=
  List.Pairwise.imp_of_mem (fun {a b} ha hb hab => by rwa [he a ha, he b hb]) h

theorem addNodeToList_eq {x y : ℚ} (h : w.Holds l) (hmn : mn ∉ l)
    (hlast : w.sorted_ = true → ∀ a ∈ l, w.X a ≤ x) :
    ∃ w', addNodeToList { w with X := Function.update w.X mn x, Y := Function.update w.Y mn y } mn =
        some w' ∧ w'.Holds (l ++ [mn]) := by
  have hold : ∀ a ∈ l, Function.update w.X mn x a = w.X a := by
    intro a ha
    apply Function.update_of_ne
    rintro rfl
    exact hmn ha
  have hasc : w.sorted_ = true → Ascends (Function.update w.X mn x) (l ++ [mn]) := by
    intro hs
    refine List.pairwise_append.mpr ⟨ascends_congr (h.ascends hs) hold, List.pairwise_singleton _ _,
      fun a ha b hb => ?_⟩
    obtain rfl := List.mem_singleton.mp hb
    rw [hold a ha, Function.update_self]
    exact hlast hs a ha
  obtain ⟨t, hrep⟩ := h.links
  have h1 := rep_insert (L := l) (R := []) (n := mn) (by simpa using hrep) (by simpa using hmn)
  have hcount : w.numNodes_ + 1 = (l ++ [mn]).length := by rw [h.count]; simp
  unfold addNodeToList
  cases l with
  | nil =>
    have hhead : w.xListHead_ = none := h.links.head
    simp only [hhead]
    exact ⟨_, rfl, links_of_eq h1 rfl rfl rfl, hcount, hasc⟩
  | cons b l =>
    have hhead : w.xListHead_ = some b := h.links.head
    obtain ⟨tmp, htmp⟩ : ∃ tmp, (b :: l).getLast? = some tmp := ⟨_, List.getLast?_cons⟩
    have hwalk : walk w.nextX_ (fun _ => true) (w.numNodes_ + 1) b = some tmp := by
      rw [← htmp]
      apply walk_eq (R := []) _ (fun _ _ => rfl) (by simp)
      · rw [h.count]
        simp
      · intro pre a post he
        rw [List.append_nil]
        exact Links.next (by rw [← he]; exact h.links)
    have hne : tmp ≠ mn := by
      rintro rfl
      exact hmn (List.mem_of_getLast? htmp)
    simp only [hhead, hwalk, Option.map_some]
    rw [htmp] at h1
    exact ⟨_, rfl, links_of_eq h1 (Function.update_comm hne _ _ _) rfl hhead.symm, hcount, hasc⟩

theorem without_sublist (mn : ℕ) (l : List ℕ) : (without mn l).Sublist l := by
  unfold without
  split_ifs
  · exact .refl l
  · exact List.erase_sublist

theorem findOut_eq {fuel : ℕ} (h : w.Holds (L ++ a :: M)) (hL : mn ∉ L) (hfuel : M.length < fuel) :
    ∃ w', w.findOut mn fuel a = some w' ∧ w'.Holds (without mn (L ++ a :: M)) := by
  induction M generalizing L a fuel with
  | nil =>
    obtain ⟨fuel, rfl⟩ : ∃ k, fuel = k + 1 := ⟨fuel - 1, by simp at hfuel; omega⟩
    have hsame : without mn (L ++ [a]) = L ++ [a] := by
      by_cases ha : a = mn
      · simp [without, ha]
      · have hnotin : mn ∉ L ++ [a] := by simp [hL, Ne.symm ha]
        simp [without, List.erase_of_not_mem hnotin]
    refine ⟨w, ?_, by rwa [hsame]⟩
    rw [findOut, h.links.next]
    rfl
  | cons n M ih =>
    obtain ⟨fuel, rfl⟩ : ∃ k, fuel = k + 1 := ⟨fuel - 1, by simp at hfuel; omega⟩
    rw [findOut, h.links.next]
    by_cases ha : a = mn
    · subst ha
      obtain ⟨w', hout, hl, hk⟩ := h.links.takeOut
      have hnd := h.links.nodup
      have hgone : without a (L ++ a :: n :: M) = L ++ n :: M := by
        have hlast : (L ++ a :: n :: M).getLast? ≠ some a := by
          intro he
          rw [List.nodup_middle] at hnd
          refine (List.nodup_cons.mp hnd).1 (List.mem_append_right L ?_)
          rw [List.getLast?_append, List.getLast?_cons_cons] at he
          exact List.mem_of_getLast? (by simpa using he)
        rw [without, if_neg hlast, List.erase_append_right _ hL, List.erase_cons_head]
      refine ⟨w', by simpa using hout, ?_⟩
      have hsub := without_sublist a (L ++ a :: n :: M)
      rw [hgone] at hsub ⊢
      have hcount := h.count
      refine ⟨hl, ?_, fun hs => ?_⟩
      · rw [hk.numNodes_]
        show w.numNodes_ - 1 = _
        rw [hcount]
        simp
      · rw [hk.X]
        exact (h.ascends (hk.sorted_.symm.trans hs)).sublist hsub
    · have hrest := @ih (L ++ [a]) n fuel (by simpa using h) (by simp [hL, Ne.symm ha])
        (by simpa using hfuel)
      simpa [ha] using hrest

theorem removeNodeFromList_eq (mn : ℕ) (h : w.Holds l) (hne : l ≠ []) :
    ∃ w', w.removeNodeFromList mn = some w' ∧ w'.Holds (without mn l) := by
  cases l with
  | nil => exact absurd rfl hne
  | cons a l =>
    unfold removeNodeFromList
    rw [h.links.head]
    exact findOut_eq (L := []) h (by simp) (by rw [h.count]; simp)

theorem moveX_perm {due : ℕ → Option (ℚ × ℚ)} {l' : List ℕ} (hp : l'.Perm l) (x : ℕ → ℚ) :
    moveX due l' x = moveX due l x := by
  funext a
  simp only [moveX, hp.mem_iff]

theorem moveY_perm {due : ℕ → Option (ℚ × ℚ)} {l' : List ℕ} (hp : l'.Perm l) (y : ℕ → ℚ) :
    moveY due l' y = moveY due l y := by
  funext a
  simp only [moveY, hp.mem_iff]

/-- A packet goes to the nodes around the place where its sender was, whatever the order of the
list was. -/
theorem sendUp_eq (due : ℕ → Option (ℚ × ℚ)) (radius : ℚ) (h : w.Holds l) (hmn : mn ∈ l) :
    ∃ w' l' o, w.sendUp due mn radius = some (w', o) ∧ w'.Holds l' ∧ l'.Perm l ∧
      w'.sorted_ = true ∧ w'.X = moveX due l w.X ∧ w'.Y = moveY due l w.Y ∧
      (|w'.X mn - w.X mn| ≤ radius → o.Nodup ∧ ∀ a, a ∈ o ↔ a ∈ l ∧ a ≠ mn ∧
        |w'.X a - w.X mn| ≤ radius ∧ |w'.Y a - w.Y mn| ≤ radius) := by
  obtain ⟨v, lv, hv, hvh, hvp, hvs, hvX, hvY⟩ : ∃ v lv,
      (if w.sorted_ then some w else w.sortLists) = some v ∧ v.Holds lv ∧ lv.Perm l ∧
        v.sorted_ = true ∧ v.X = w.X ∧ v.Y = w.Y := by
    cases hs : w.sorted_ with
    | false => exact sortLists_eq h.links h.count
    | true => exact ⟨w, l, rfl, h, .refl l, hs, rfl, rfl⟩
  obtain ⟨w', L, R, hh, hp, hs, hX, hY, hget⟩ := getAffectedNodes_eq due
    radius hvh hvs (hvp.mem_iff.mpr hmn)
  rw [hvX] at hget
  rw [hvY] at hget
  have hnd := hh.links.nodup
  obtain ⟨hascL, hascR, hascLR⟩ := List.pairwise_append.mp (hh.ascends hs)
  refine ⟨w', L ++ mn :: R, _, by rw [sendUp, hv, Option.bind_some, hget]; rfl, hh,
    hp.trans hvp, hs, by rw [hX, hvX, moveX_perm hvp], by rw [hY, hvY, moveY_perm hvp],
    fun hclose => ?_⟩
  obtain ⟨hlow, hhigh⟩ := abs_le.mp hclose
  have hmn' : mn ∉ L ++ R := by
    rw [List.nodup_middle] at hnd
    exact (List.nodup_cons.mp hnd).1
  constructor
  · have hcons : (mn :: L.reverse ++ R).Nodup := by
      refine (List.Perm.nodup_iff ?_).mp hnd
      exact List.perm_middle.trans ((List.reverse_perm L).symm.append_right R |>.cons mn)
    obtain ⟨hL, hR, hLR⟩ := List.nodup_append.mp hcons
    refine (List.nodup_append.mpr ⟨(hL.filter _).filter _, (hR.filter _).filter _, ?_⟩).filter _
    intro a ha b hb
    exact hLR a (List.mem_of_mem_filter (List.mem_of_mem_filter ha)) b
      (List.mem_of_mem_filter (List.mem_of_mem_filter hb))
  · intro a
    rw [← (hp.trans hvp).mem_iff]
    have hleft : a ∈ L → w'.X a ≤ w.X mn + radius := fun ha => by
      have := hascLR a ha mn List.mem_cons_self
      linarith
    have hright : a ∈ R → w.X mn - radius ≤ w'.X a := fun ha => by
      have := List.rel_of_pairwise_cons hascR ha
      linarith
    simp only [List.mem_filter, List.mem_append, List.mem_cons, List.mem_reverse, decide_eq_true_eq,
      abs_le, ge_iff_le, ne_eq, decide_not, Bool.not_eq_true', decide_eq_false_iff_not]
    constructor
    · rintro ⟨⟨⟨ha, hx⟩, hy⟩ | ⟨⟨ha, hx⟩, hy⟩, hne⟩
      · have := hleft (ha.resolve_left hne)
        exact ⟨by tauto, hne, ⟨by linarith, by linarith⟩, by linarith [hy.1], by linarith [hy.2]⟩
      · have := hright ha
        exact ⟨by tauto, hne, ⟨by linarith, by linarith⟩, by linarith [hy.1], by linarith [hy.2]⟩
    · rintro ⟨ha, hne, ⟨hx, hx'⟩, hy, hy'⟩
      refine ⟨?_, hne⟩
      rcases ha with ha | rfl | ha
      · exact .inl ⟨⟨.inr ha, by linarith⟩, by linarith, by linarith⟩
      · exact absurd rfl hne
      · exact .inr ⟨⟨ha, by linarith⟩, by linarith, by linarith⟩

/-- What a step does to the list. -/
def Lists (w : WirelessChannel) (i : Input) (_ : List ℕ) (w' : WirelessChannel) : Prop :=
  w'.Holds w'.nodes ∧
    match i with
    | .add mn _ _ => w'.nodes = w.nodes ++ [mn]
    | .remove mn => w'.nodes = without mn w.nodes
    | .move _ _ _ => w'.nodes.Perm w.nodes
    | .send _ _ _ => w'.nodes.Perm w.nodes ∧ w'.sorted_ = true

/-- Which nodes a packet reaches: those in the square around the place where its sender was before
the update, if the sender itself did not leave it. -/
def Reaches (w : WirelessChannel) (i : Input) (o : List ℕ) (w' : WirelessChannel) : Prop :=
  match i with
  | .send mn radius due =>
    w'.X = moveX due w.nodes w.X ∧ w'.Y = moveY due w.nodes w.Y ∧
      (|w'.X mn - w.X mn| ≤ radius → o.Nodup ∧ ∀ a, a ∈ o ↔ a ∈ w.nodes ∧ a ≠ mn ∧
        |w'.X a - w.X mn| ≤ radius ∧ |w'.Y a - w.Y mn| ≤ radius)
  | _ => o = []

theorem step_spec {i : Input} (h : ∃ l, w.Holds l) (hi : w.Allowed i) :
    ∃ w' o, w.step i = some (w', o) ∧ (w.Lists i o w' ∧ w.Reaches i o w') ∧ ∃ l, w'.Holds l := by
  obtain ⟨l, h⟩ := h
  obtain rfl := h.nodes
  cases i with
  | add mn x y =>
    obtain ⟨w', hadd, hh⟩ := addNodeToList_eq (y := y) h hi.1 hi.2
    exact ⟨w', [], congrArg (Option.map fun w => (w, [])) hadd,
      ⟨⟨hh.nodes.symm ▸ hh, hh.nodes⟩, rfl⟩, _, hh⟩
  | remove mn =>
    obtain ⟨w', hremove, hh⟩ := removeNodeFromList_eq mn h hi
    exact ⟨w', [], congrArg (Option.map fun w => (w, [])) hremove,
      ⟨⟨hh.nodes.symm ▸ hh, hh.nodes⟩, rfl⟩, _, hh⟩
  | move mn x y =>
    obtain ⟨w', l', hmove, hh, hp, -⟩ := updatePosition_eq (x := x) (y := y) h hi
    obtain rfl := hh.nodes
    exact ⟨w', [], congrArg (Option.map fun w => (w, [])) hmove, ⟨⟨hh, hp⟩, rfl⟩, _, hh⟩
  | send mn radius due =>
    obtain ⟨w', l', o, hsend, hh, hp, hs, hrest⟩ := sendUp_eq due radius h hi
    obtain rfl := hh.nodes
    exact ⟨w', o, hsend, ⟨⟨hh, hp, hs⟩, hrest⟩, _, hh⟩

theorem initial_holds : initial.Holds [] :=
  ⟨⟨none, .nil rfl rfl⟩, rfl, fun h => by cases h⟩

/-- However nodes are added, moved and removed and packets sent, no step follows a null pointer or
goes round for ever, and the links run through the nodes, each once, by position after the first
packet. -/
theorem lists_nodes {is : List Input} (h : Machine.Admits step Allowed initial is) :
    Machine.Each step Lists initial is :=
  Machine.each_of_admits (I := fun w : WirelessChannel => ∃ l, w.Holds l)
    (fun _ _ hw hi => by
      obtain ⟨w', o, hs, ⟨hl, -⟩, hw'⟩ := step_spec hw hi
      exact ⟨w', o, hs, hl, hw'⟩) ⟨[], initial_holds⟩ h

/-- Three nodes, the first of which moves past the second between two packets. -/
def three : List Input :=
  [.add 0 0 0, .add 1 10 0, .add 2 3 4, .send 0 5 fun _ => none, .move 0 12 0,
    .send 1 5 fun a => if a = 2 then some (8, 4) else none]

theorem lists_nodes_three : Machine.Each step Lists initial three := lists_nodes (by decide +kernel)

/-- Every packet of a run reaches exactly the nodes that are near enough. -/
theorem reaches_near {is : List Input} (h : Machine.Admits step Allowed initial is) :
    Machine.Each step Reaches initial is :=
  Machine.each_of_admits (I := fun w : WirelessChannel => ∃ l, w.Holds l)
    (fun _ _ hw hi => by
      obtain ⟨w', o, hs, ⟨-, hr⟩, hw'⟩ := step_spec hw hi
      exact ⟨w', o, hs, hr, hw'⟩) ⟨[], initial_holds⟩ h

theorem reaches_near_three : Machine.Each step Reaches initial three :=
  reaches_near (by decide +kernel)

end WirelessChannel

end Ns2
