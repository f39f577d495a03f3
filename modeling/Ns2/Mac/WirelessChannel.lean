import Ns2.Lib.DList
import Ns2.Lib.NextPointers

/-! The wireless channel's list of its nodes by their x position, in which a sender finds the nodes
around it. Nodes are numbered. -/

namespace Ns2

structure WirelessChannel where
  numNodes_ : ℕ
  xListHead_ : Option ℕ
  sorted_ : Bool
  nextX_ : ℕ → Option ℕ
  prevX_ : ℕ → Option ℕ
  X : ℕ → ℚ
  Y : ℕ → ℚ

namespace WirelessChannel

def setNext (w : WirelessChannel) (a : ℕ) (p : Option ℕ) : WirelessChannel :=
  { w with nextX_ := Function.update w.nextX_ a p }

def setPrev (w : WirelessChannel) (a : ℕ) (p : Option ℕ) : WirelessChannel :=
  { w with prevX_ := Function.update w.prevX_ a p }

/-- `tmp = tmp->nextX_` while the test holds of the next node. The loops have at most as many rounds
as there are nodes, or go on for ever. -/
def walk (link : ℕ → Option ℕ) (test : ℕ → Bool) : ℕ → ℕ → Option ℕ
  | 0, _ => none
  | fuel + 1, tmp =>
    match link tmp with
    | none => some tmp
    | some n => if test n then walk link test fuel n else some tmp

def addNodeToList (w : WirelessChannel) (mn : ℕ) : Option WirelessChannel :=
  match w.xListHead_ with
  | none =>
    some { (({ w with xListHead_ := some mn }.setNext mn none).setPrev mn none) with
      numNodes_ := w.numNodes_ + 1 }
  | some h =>
    (walk w.nextX_ (fun _ => true) (w.numNodes_ + 1) h).map fun tmp =>
      { (((w.setNext tmp (some mn)).setPrev mn (some tmp)).setNext mn none) with
        numNodes_ := w.numNodes_ + 1 }

/-- The body of the loop of `removeNodeFromList`, when the node was found; `n` is the next. -/
def takeOut (w : WirelessChannel) (tmp n : ℕ) : Option WirelessChannel :=
  if w.xListHead_ = some tmp then
    some { ({ w with xListHead_ := some n }.setPrev n none) with numNodes_ := w.numNodes_ - 1 }
  else
    (w.prevX_ tmp).map fun p =>
      { ((w.setNext p (some n)).setPrev n (w.prevX_ tmp)) with numNodes_ := w.numNodes_ - 1 }

/-- The loop of `removeNodeFromList`, which does not look at the last node. -/
def findOut (w : WirelessChannel) (mn : ℕ) : ℕ → ℕ → Option WirelessChannel
  | 0, _ => none
  | fuel + 1, tmp =>
    match w.nextX_ tmp with
    | none => some w
    | some n => if tmp = mn then w.takeOut tmp n else findOut w mn fuel n

/-- `none` is also the end of the program, where the list is empty. -/
def removeNodeFromList (w : WirelessChannel) (mn : ℕ) : Option WirelessChannel :=
  w.xListHead_.bind (w.findOut mn (w.numNodes_ + 1))

/-- Node `q` behind `m` is put before it. -/
def swap (w : WirelessChannel) (m q : ℕ) : WirelessChannel :=
  let r := w.nextX_ q
  let w := w.setNext m r
  let w := match r with
    | some r => w.setPrev r (some m)
    | none => w
  let w := w.setNext q (some m)
  let p := w.prevX_ m
  let w := (w.setPrev q p).setPrev m (some q)
  let w := match p with
    | some p => w.setNext p (some q)
    | none => w
  if w.xListHead_ = some m then { w with xListHead_ := some q } else w

/-- The inner loop of `sortLists`, with the flag. -/
def pass : ℕ → WirelessChannel → Option ℕ → Bool → Option (WirelessChannel × Bool)
  | 0, _, _, _ => none
  | _ + 1, w, none, flag => some (w, flag)
  | fuel + 1, w, some m, flag =>
    match w.nextX_ m with
    | none => pass fuel w none flag
    | some q =>
      if w.X m > w.X q then pass fuel (w.swap m q) ((w.swap m q).nextX_ m) true
      else pass fuel w (some q) flag

def sortLoop : ℕ → WirelessChannel → Option WirelessChannel
  | 0, _ => none
  | fuel + 1, w =>
    match pass (w.numNodes_ + 1) w w.xListHead_ false with
    | none => none
    | some (w, flag) => if flag then sortLoop fuel w else some w

def sortLists (w : WirelessChannel) : Option WirelessChannel :=
  sortLoop (w.numNodes_ * w.numNodes_ + 1) { w with sorted_ := true }

/-- The first half of `updateNodesList`; `none` if `skipX`. -/
def detach (w : WirelessChannel) (mn : ℕ) : Option WirelessChannel :=
  match w.nextX_ mn, w.prevX_ mn with
  | some n, some p =>
    if w.X n ≥ w.X mn ∧ w.X p ≤ w.X mn then none
    else some ((w.setPrev n (some p)).setNext p (some n))
  | some n, none =>
    if w.X n ≥ w.X mn then none else some { (w.setPrev n none) with xListHead_ := some n }
  | none, some p => if w.X p ≤ w.X mn then none else some (w.setNext p none)
  | none, none => none

/-- A node that moved to the right is put back behind `tmp`. -/
def insertAfter (w : WirelessChannel) (mn tmp : ℕ) : WirelessChannel :=
  match w.nextX_ tmp with
  | none => ((w.setNext tmp (some mn)).setPrev mn (some tmp)).setNext mn none
  | some n =>
    (((w.setPrev mn (w.prevX_ n)).setNext mn (some n)).setPrev n (some mn)).setNext tmp (some mn)

/-- A node that moved to the left is put back before `tmp`. -/
def insertBefore (w : WirelessChannel) (mn tmp : ℕ) : WirelessChannel :=
  match w.prevX_ tmp with
  | none =>
    { (((w.setPrev tmp (some mn)).setNext mn (some tmp)).setPrev mn none) with
      xListHead_ := some mn }
  | some p =>
    (((w.setNext mn (w.nextX_ p)).setPrev mn (some p)).setNext p (some mn)).setPrev tmp (some mn)

def updateNodesList (w : WirelessChannel) (mn : ℕ) (oldX : ℚ) : Option WirelessChannel :=
  if !w.sorted_ then w.sortLists
  else
    match w.detach mn with
    | none => some w
    | some w =>
      if w.X mn > oldX then
        (walk w.nextX_ (fun n => w.X n < w.X mn) (w.numNodes_ + 1) mn).map (w.insertAfter mn)
      else
        (walk w.prevX_ (fun n => w.X n > w.X mn) (w.numNodes_ + 1) mn).map (w.insertBefore mn)

/-- `MobileNode::update_position`, with the new position. -/
def updatePosition (w : WirelessChannel) (mn : ℕ) (x y : ℚ) : Option WirelessChannel :=
  let moved := { w with X := Function.update w.X mn x, Y := Function.update w.Y mn y }
  if w.X mn ≠ x then moved.updateNodesList mn (w.X mn) else some moved

/-- The nodes that are due get their new positions. -/
def updateAll (due : ℕ → Option (ℚ × ℚ)) : List ℕ → WirelessChannel → Option WirelessChannel
  | [], w => some w
  | a :: nodes, w =>
    match due a with
    | none => updateAll due nodes w
    | some (x, y) => (w.updatePosition a x y).bind (updateAll due nodes)

/-- The loops that collect the nodes, from `tmp` while the first test holds. -/
def collect (link : ℕ → Option ℕ) (near inside : ℕ → Bool) : ℕ → Option ℕ → Option (List ℕ)
  | 0, _ => none
  | _ + 1, none => some []
  | fuel + 1, some tmp =>
    if near tmp then
      (collect link near inside fuel (link tmp)).map fun rest =>
        if inside tmp then tmp :: rest else rest
    else some []

/-- `getAffectedNodes`: the square is around the sender's position before the update. The array has
room for `numNodes_` nodes. -/
def getAffectedNodes (w : WirelessChannel) (due : ℕ → Option (ℚ × ℚ)) (mn : ℕ) (radius : ℚ) :
    Option (WirelessChannel × List ℕ) :=
  let inside (w : WirelessChannel) (y : ℚ) (a : ℕ) : Bool :=
    w.Y a ≥ y - radius ∧ w.Y a ≤ y + radius
  (NextPointers.follow w.nextX_ (w.numNodes_ + 1) w.xListHead_).bind fun nodes =>
    if nodes.length > w.numNodes_ then none
    else
      (updateAll due nodes w).bind fun w' =>
        (collect w'.prevX_ (fun a => w'.X a ≥ w.X mn - radius) (inside w' (w.Y mn))
          (w'.numNodes_ + 1) (some mn)).bind fun left =>
        (collect w'.nextX_ (fun a => w'.X a ≤ w.X mn + radius) (inside w' (w.Y mn))
          (w'.numNodes_ + 1) (w'.nextX_ mn)).map fun right => (w', left ++ right)

/-- `sendUp`, up to the nodes that receive a copy. -/
def sendUp (w : WirelessChannel) (due : ℕ → Option (ℚ × ℚ)) (mn : ℕ) (radius : ℚ) :
    Option (WirelessChannel × List ℕ) :=
  (if w.sorted_ then some w else w.sortLists).bind fun w =>
    (w.getAffectedNodes due mn radius).map fun r => (r.1, r.2.filter (· ≠ mn))

variable {w w' : WirelessChannel} {L M R l : List ℕ} {a m n q mn : ℕ} {t : Option ℕ}

/-- The channel's links, with a tail. -/
def dlist (w : WirelessChannel) (t : Option ℕ) : DList ℕ := ⟨w.nextX_, w.prevX_, w.xListHead_, t⟩

/-- The links run through `l`. -/
def Links (w : WirelessChannel) (l : List ℕ) : Prop := ∃ t, (w.dlist t).Rep l

/-- The links are all that changed. -/
structure Kept (w w' : WirelessChannel) : Prop where
  numNodes_ : w'.numNodes_ = w.numNodes_
  sorted_ : w'.sorted_ = w.sorted_
  X : w'.X = w.X
  Y : w'.Y = w.Y

theorem Kept.trans {v : WirelessChannel} (h : Kept v w) (h' : Kept w w') : Kept v w' :=
  ⟨h'.numNodes_.trans h.numNodes_, h'.sorted_.trans h.sorted_, h'.X.trans h.X, h'.Y.trans h.Y⟩

theorem links_of_eq {d : DList ℕ} (h : d.Rep l) (hn : w.nextX_ = d.next) (hp : w.prevX_ = d.prev)
    (hh : w.xListHead_ = d.head) : w.Links l :=
  ⟨d.tail, by rw [dlist, hn, hp, hh]; exact h⟩

theorem rep_unlink {d : DList ℕ} (h : d.Rep (L ++ a :: R)) :
    ((d.setNext L.getLast? R.head?).setPrev R.head? L.getLast?).Rep (L ++ R) := by
  obtain ⟨d', hd', hrep⟩ : ∃ d', d.unlink (fun _ => true) a = some d' ∧ d'.Rep (L ++ R) :=
    h.unlink fun _ _ => rfl
  rw [DList.unlink, h.prev, h.next, if_pos ⟨rfl, fun _ _ => rfl, fun _ _ => rfl⟩] at hd'
  rw [Option.some.inj hd']
  exact hrep

theorem rep_insert {d : DList ℕ} (h : d.Rep (L ++ R)) (hn : n ∉ L ++ R) :
    (({ d with
        prev := Function.update d.prev n L.getLast?
        next := Function.update d.next n R.head? }.setNext L.getLast? (some n)).setPrev R.head?
      (some n)).Rep (L ++ n :: R) := by
  obtain ⟨d', hd', hrep⟩ : ∃ d', d.insert (fun _ => true) L.getLast? R.head? n = some d' ∧
      d'.Rep (L ++ n :: R) := h.insert hn (fun _ _ => rfl) rfl
  rw [DList.insert, if_pos ⟨rfl, fun _ _ => rfl, fun _ _ => rfl⟩] at hd'
  rw [Option.some.inj hd']
  exact hrep

theorem Links.nodup (h : w.Links l) : l.Nodup := h.choose_spec.nodup

theorem Links.head (h : w.Links l) : w.xListHead_ = l.head? := h.choose_spec.head

theorem Links.next (h : w.Links (L ++ a :: R)) : w.nextX_ a = R.head? := h.choose_spec.next

theorem Links.prev (h : w.Links (L ++ a :: R)) : w.prevX_ a = L.getLast? := h.choose_spec.prev

theorem swap_kept (w : WirelessChannel) (m q : ℕ) : Kept w (w.swap m q) := by
  unfold WirelessChannel.swap
  constructor <;> (dsimp only; split <;> split <;> split <;> rfl)

/-- The head is a node of the list that has none before it. -/
theorem Links.head_iff (h : w.Links (L ++ a :: R)) : w.xListHead_ = some a ↔ L = [] := by
  have hnd := h.nodup
  rw [h.head]
  cases L with
  | nil => simp
  | cons b L =>
    rw [List.cons_append, List.head?_cons, Option.some.injEq]
    refine iff_of_false ?_ (by simp)
    rintro rfl
    simp at hnd

/-- A node is exchanged with the next. -/
theorem Links.swap (h : w.Links (L ++ m :: q :: R)) : (w.swap m q).Links (L ++ q :: m :: R) := by
  have hnext : w.nextX_ q = R.head? := Links.next (L := L ++ [m]) (by simpa using h)
  have hprev := h.prev
  have hnil := h.head_iff
  obtain ⟨t, hrep⟩ := h
  have hnd := hrep.nodup
  have hq : q ∉ L ++ m :: R := by
    have := hnd
    rw [show L ++ m :: q :: R = (L ++ [m]) ++ q :: R by simp, List.nodup_middle] at this
    simpa using (List.nodup_cons.mp this).1
  have h1 := rep_unlink (L := L ++ [m]) (R := R) (a := q) (d := w.dlist t) (by simpa using hrep)
  have h1' : (((w.dlist t).setNext (L ++ [m]).getLast? R.head?).setPrev R.head?
      (L ++ [m]).getLast?).Rep (L ++ m :: R) := by simpa using h1
  have h2 := rep_insert (R := m :: R) h1' hq
  have hm : ∀ r, R.head? = some r → m ≠ r := by
    rintro r hr rfl
    rw [List.nodup_middle] at hnd
    exact (List.nodup_cons.mp hnd).1 (by simp [List.mem_of_mem_head? hr])
  have hlast : (L ++ [m]).getLast? = some m := by simp
  rw [hlast] at h2
  refine links_of_eq h2 ?_ ?_ ?_
  all_goals
    unfold WirelessChannel.swap
    cases hR : R.head? with
    | none =>
      cases hL : L.getLast? with
      | none =>
        have hempty := hnil.mpr (List.getLast?_eq_none_iff.mp hL)
        simp [setNext, setPrev, hnext, hprev, hR, hL, hempty, DList.setNext, DList.setPrev, dlist]
      | some b =>
        have hfull : w.xListHead_ ≠ some m := fun h => by simp [hnil.mp h] at hL
        simp [setNext, setPrev, hnext, hprev, hR, hL, hfull, DList.setNext, DList.setPrev, dlist]
    | some r =>
      have hr := hm r hR
      cases hL : L.getLast? with
      | none =>
        have hempty := hnil.mpr (List.getLast?_eq_none_iff.mp hL)
        simp [setNext, setPrev, hnext, hprev, hR, hL, hr, hempty, DList.setNext, DList.setPrev,
          dlist]
      | some b =>
        have hfull : w.xListHead_ ≠ some m := fun h => by simp [hnil.mp h] at hL
        simp [setNext, setPrev, hnext, hprev, hR, hL, hr, hfull, DList.setNext, DList.setPrev,
          dlist]

/-- A node that is not the last is taken out. -/
theorem Links.takeOut (h : w.Links (L ++ a :: n :: R)) :
    ∃ w', w.takeOut a n = some w' ∧ w'.Links (L ++ n :: R) ∧
      Kept { w with numNodes_ := w.numNodes_ - 1 } w' := by
  have hprev := h.prev
  have hiff := h.head_iff
  obtain ⟨t, hrep⟩ := h
  have h1 := rep_unlink hrep
  unfold WirelessChannel.takeOut
  cases hL : L.getLast? with
  | none =>
    rw [if_pos (hiff.mpr (List.getLast?_eq_none_iff.mp hL))]
    rw [hL] at h1
    exact ⟨_, rfl, links_of_eq h1 rfl rfl rfl, rfl, rfl, rfl, rfl⟩
  | some b =>
    rw [if_neg (fun hhead => by simp [hiff.mp hhead] at hL), hprev, hL]
    rw [hL] at h1
    exact ⟨_, rfl, links_of_eq h1 rfl rfl rfl, rfl, rfl, rfl, rfl⟩

/-- What `detach` does, when the node is not where it belongs: the others are linked, and the node
still points to its old neighbours. -/
theorem Links.detach (h : w.Links (L ++ mn :: R)) :
    (w.detach mn = none ∧ (∀ n, R.head? = some n → w.X mn ≤ w.X n) ∧
      (∀ p, L.getLast? = some p → w.X p ≤ w.X mn)) ∨
    (∃ w', w.detach mn = some w' ∧ w'.Links (L ++ R) ∧ w'.nextX_ mn = R.head? ∧
      w'.prevX_ mn = L.getLast? ∧ Kept w w' ∧
      ((∃ n, R.head? = some n ∧ w.X n < w.X mn) ∨ ∃ p, L.getLast? = some p ∧ w.X mn < w.X p)) := by
  have hprev := h.prev
  have hnext := h.next
  have hnd := h.nodup
  obtain ⟨t, hrep⟩ := h
  have h1 := rep_unlink hrep
  have hn : ∀ n, R.head? = some n → mn ≠ n := by
    rintro n hR rfl
    rw [List.nodup_middle] at hnd
    exact (List.nodup_cons.mp hnd).1 (by simp [List.mem_of_mem_head? hR])
  have hp : ∀ p, L.getLast? = some p → mn ≠ p := by
    rintro p hL rfl
    rw [List.nodup_middle] at hnd
    exact (List.nodup_cons.mp hnd).1 (by simp [List.mem_of_getLast? hL])
  unfold WirelessChannel.detach
  rw [hnext, hprev]
  cases hR : R.head? with
  | none =>
    cases hL : L.getLast? with
    | none => exact .inl ⟨rfl, by simp, by simp⟩
    | some p =>
      by_cases hskip : w.X p ≤ w.X mn
      · exact .inl ⟨if_pos hskip, by simp, by simpa using hskip⟩
      · rw [hR, hL] at h1
        refine .inr ⟨_, if_neg hskip, links_of_eq h1 rfl rfl rfl, ?_, ?_, ⟨rfl, rfl, rfl, rfl⟩,
          .inr ⟨p, rfl, not_le.mp hskip⟩⟩
        · exact (Function.update_of_ne (hp p hL) _ _).trans (hnext.trans hR)
        · exact hprev.trans hL
  | some n =>
    cases hL : L.getLast? with
    | none =>
      by_cases hskip : w.X n ≥ w.X mn
      · exact .inl ⟨if_pos hskip, by simpa using hskip, by simp⟩
      · rw [hR, hL] at h1
        refine .inr ⟨_, if_neg hskip, links_of_eq h1 rfl rfl rfl, ?_, ?_, ⟨rfl, rfl, rfl, rfl⟩,
          .inl ⟨n, rfl, not_le.mp hskip⟩⟩
        · exact hnext.trans hR
        · exact (Function.update_of_ne (hn n hR) _ _).trans (hprev.trans hL)
    | some p =>
      by_cases hskip : w.X n ≥ w.X mn ∧ w.X p ≤ w.X mn
      · exact .inl ⟨if_pos hskip, by simpa using hskip.1, by simpa using hskip.2⟩
      · rw [hR, hL] at h1
        refine .inr ⟨_, if_neg hskip, links_of_eq h1 rfl rfl rfl, ?_, ?_, ⟨rfl, rfl, rfl, rfl⟩, ?_⟩
        · exact (Function.update_of_ne (hp p hL) _ _).trans (hnext.trans hR)
        · exact (Function.update_of_ne (hn n hR) _ _).trans (hprev.trans hL)
        · rcases not_and_or.mp hskip with hlt | hlt
          · exact .inl ⟨n, rfl, not_le.mp hlt⟩
          · exact .inr ⟨p, rfl, not_le.mp hlt⟩

/-- The node is put behind the last of `L`. -/
theorem Links.insertAfter {tmp : ℕ} (h : w.Links (L ++ R)) (hmn : mn ∉ L ++ R)
    (htmp : L.getLast? = some tmp) :
    (w.insertAfter mn tmp).Links (L ++ mn :: R) ∧ Kept w (w.insertAfter mn tmp) := by
  obtain ⟨L', rfl⟩ : ∃ L', L = L' ++ [tmp] := ⟨L.dropLast, by
    rw [List.dropLast_append_getLast?]
    exact htmp⟩
  have hnext : w.nextX_ tmp = R.head? := Links.next (L := L') (by simpa using h)
  have hne : tmp ≠ mn := fun he => hmn (by simp [he])
  obtain ⟨t, hrep⟩ := h
  have h1 := rep_insert hrep hmn
  rw [htmp] at h1
  unfold WirelessChannel.insertAfter
  rw [hnext]
  cases hR : R.head? with
  | none =>
    rw [hR] at h1
    refine ⟨links_of_eq h1 ?_ rfl rfl, rfl, rfl, rfl, rfl⟩
    exact Function.update_comm hne _ _ _
  | some n =>
    obtain ⟨R', rfl⟩ := List.head?_eq_some_iff.mp hR
    have hprev : w.prevX_ n = some tmp := by
      have := Links.prev (L := L' ++ [tmp]) ⟨t, hrep⟩
      simpa using this
    rw [hR] at h1
    refine ⟨links_of_eq h1 rfl ?_ rfl, rfl, rfl, rfl, rfl⟩
    show Function.update (Function.update w.prevX_ mn (w.prevX_ n)) n (some mn) = _
    rw [hprev]
    rfl

/-- The node is put before the first of `R`. -/
theorem Links.insertBefore {tmp : ℕ} (h : w.Links (L ++ R)) (hmn : mn ∉ L ++ R)
    (htmp : R.head? = some tmp) :
    (w.insertBefore mn tmp).Links (L ++ mn :: R) ∧ Kept w (w.insertBefore mn tmp) := by
  obtain ⟨R', rfl⟩ := List.head?_eq_some_iff.mp htmp
  have hprev : w.prevX_ tmp = L.getLast? := h.prev
  have hne : tmp ≠ mn := fun he => hmn (by simp [he])
  obtain ⟨t, hrep⟩ := h
  have h1 := rep_insert hrep hmn
  rw [htmp] at h1
  unfold WirelessChannel.insertBefore
  rw [hprev]
  cases hL : L.getLast? with
  | none =>
    rw [hL] at h1
    refine ⟨links_of_eq h1 rfl ?_ rfl, rfl, rfl, rfl, rfl⟩
    exact Function.update_comm hne _ _ _
  | some p =>
    have hnext : w.nextX_ p = some tmp := by
      obtain ⟨L', rfl⟩ : ∃ L', L = L' ++ [p] := ⟨L.dropLast, by
        rw [List.dropLast_append_getLast?]
        exact hL⟩
      exact Links.next (L := L') (R := tmp :: R') ⟨t, by simpa using hrep⟩
    rw [hL] at h1
    refine ⟨links_of_eq h1 ?_ rfl rfl, rfl, rfl, rfl, rfl⟩
    show Function.update (Function.update w.nextX_ mn (w.nextX_ p)) p (some mn) = _
    rw [hnext]
    rfl

end WirelessChannel

end Ns2
