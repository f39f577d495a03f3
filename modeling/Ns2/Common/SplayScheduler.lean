import Ns2.Common.Scheduler

/-! The splay tree scheduler. `prev_` and `next_` of an event are its left and right
children; the events in tree order are the queue of the list scheduler. -/

namespace Ns2

open StableOrder

inductive EventTree (τ : Type*) where
  | null
  | node (left : EventTree τ) (e : Event τ) (right : EventTree τ)

namespace EventTree

variable {τ : Type*}

def toList : EventTree τ → List (Event τ)
  | null => []
  | node a e b => a.toList ++ e :: b.toList

/-- The left tree under construction, as the path of linked nodes with their left
subtrees, the bottom right node `l` first. -/
def linkLeft : List (EventTree τ × Event τ) → EventTree τ → EventTree τ
  | [], t => t
  | (a, e) :: l, t => linkLeft l (node a e t)

/-- The right tree under construction, the bottom left node `r` first. -/
def linkRight : List (Event τ × EventTree τ) → EventTree τ → EventTree τ
  | [], t => t
  | (e, b) :: r, t => linkRight r (node t e b)

end EventTree

open EventTree

structure SplayScheduler (τ : Type*) where
  root_ : EventTree τ
  qsize_ : ℤ

namespace SplayScheduler

variable {τ : Type*} [LinearOrder τ]

/-- The loop of `insert`: `l` and `r` are the two trees already split off, `t` is the
remaining tree. A pair of steps to one side rotates first. -/
def split (time : τ) (l : List (EventTree τ × Event τ)) (r : List (Event τ × EventTree τ)) :
    EventTree τ → EventTree τ × EventTree τ
  | null => (linkLeft l null, linkRight r null)
  | node a t b =>
    if time < t.time_ then
      match a with
      | null => (linkLeft l null, linkRight r (node null t b))
      | node a' x b' =>
        if time < x.time_ then
          split time l ((x, node b' t b) :: r) a'
        else
          -- zig-zag: only `t` is linked, and `x` is looked at again
          split time l ((t, b) :: r) (node a' x b')
    else
      match b with
      | null => (linkLeft l (node a t null), linkRight r null)
      | node a' x b' =>
        if time ≥ x.time_ then
          split time ((node a t a', x) :: l) r b'
        else
          split time ((a, t) :: l) r (node a' x b')

def insert (n : Event τ) (s : SplayScheduler τ) : SplayScheduler τ :=
  match s.root_ with
  | null => { root_ := node null n null, qsize_ := s.qsize_ + 1 }
  | t =>
    let lr := split n.time_ [] [] t
    { root_ := node lr.1 n lr.2, qsize_ := s.qsize_ + 1 }

/-- The descent of `deque` from a node with left child `l = node ll e b`: the event that
leaves and the tree that remains under the node. -/
def popLeft (ll : EventTree τ) (e : Event τ) (b : EventTree τ) : Event τ × EventTree τ :=
  match ll with
  | null => (e, b)
  | node null x c => (x, node c e b)
  | node (node lll y d) x c =>
    -- zig-zig: `x` is rotated above `e`, and the descent goes on at `y`
    let r := popLeft lll y d
    (r.1, node r.2 x (node c e b))

def deque (s : SplayScheduler τ) : SplayScheduler τ × Option (Event τ) :=
  match s.root_ with
  | null => (s, none)
  | node null t b => ({ root_ := b, qsize_ := s.qsize_ - 1 }, some t)
  | node (node ll e b') t b =>
    let r := popLeft ll e b'
    ({ root_ := node r.2 t b, qsize_ := s.qsize_ - 1 }, some r.1)

/-- The leftmost event `q` of `node a e b` and the tree without it. -/
def popSuccessor (a : EventTree τ) (e : Event τ) (b : EventTree τ) : Event τ × EventTree τ :=
  match a with
  | null => (e, b)
  | node a' x b' =>
    let r := popSuccessor a' x b'
    (r.1, node r.2 e b)

/-- What replaces the cancelled node with children `a` and `b`. -/
def splice (a b : EventTree τ) : EventTree τ :=
  match b with
  | null => a
  | node bl p br =>
    match a with
    | null => b
    | _ =>
      let r := popSuccessor bl p br
      node a r.1 r.2

/-- The search of `cancel` by time and uid; a null pointer is the abort. -/
def unlink (e : Event τ) : EventTree τ → Option (EventTree τ)
  | null => none
  | node a t b =>
    if t = e then some (splice a b)
    else if e.time_ > t.time_ ∨ (e.time_ = t.time_ ∧ e.uid_ > t.uid_) then
      (unlink e b).map fun b' => node a t b'
    else
      (unlink e a).map fun a' => node a' t b

def cancel (e : Event τ) (s : SplayScheduler τ) : Option (SplayScheduler τ) :=
  if e.uid_ ≤ 0 then some s
  else (unlink e s.root_).map fun root_ => { root_, qsize_ := s.qsize_ - 1 }

def queue : EventQueue τ (SplayScheduler τ) where
  insert e s := some (insert e s)
  cancel := cancel
  deque s := some (deque s)

/-! ### Tree order -/

omit [LinearOrder τ] in
theorem linkLeft_toList (l : List (EventTree τ × Event τ)) (t : EventTree τ) :
    (linkLeft l t).toList = (linkLeft l null).toList ++ t.toList := by
  induction l generalizing t with
  | nil => rfl
  | cons p l ih =>
    obtain ⟨a, e⟩ := p
    rw [linkLeft, ih, linkLeft, ih (node a e null)]
    simp [toList]

omit [LinearOrder τ] in
theorem linkRight_toList (r : List (Event τ × EventTree τ)) (t : EventTree τ) :
    (linkRight r t).toList = t.toList ++ (linkRight r null).toList := by
  induction r generalizing t with
  | nil => simp [linkRight, toList]
  | cons p r ih =>
    obtain ⟨e, b⟩ := p
    rw [linkRight, ih, linkRight, ih (node null e b)]
    simp [toList]

/-- Two trees that `t` was split into at `time`, below the paths `l` and `r`. -/
def SplitsTo (time : τ) (l : List (EventTree τ × Event τ)) (r : List (Event τ × EventTree τ))
    (events : List (Event τ)) (res : EventTree τ × EventTree τ) : Prop :=
  ∃ p q, events = p ++ q ∧ (∀ x ∈ p, x.time_ ≤ time) ∧ (∀ x ∈ q, time < x.time_) ∧
    res.1.toList = (linkLeft l null).toList ++ p ∧ res.2.toList = q ++ (linkRight r null).toList

theorem later_right {time : τ} {t : Event τ} {a b : EventTree τ}
    (h : Ordered Event.time_ (node a t b).toList) (ht : time < t.time_) :
    ∀ x ∈ t :: b.toList, time < x.time_ := by
  intro x hx
  rcases List.mem_cons.mp hx with rfl | hx
  · exact ht
  · exact ht.trans_le ((List.pairwise_cons.mp (List.pairwise_append.mp h).2.1).1 x hx)

theorem earlier_left {time : τ} {t : Event τ} {a b : EventTree τ}
    (h : Ordered Event.time_ (node a t b).toList) (ht : t.time_ ≤ time) :
    ∀ x ∈ a.toList ++ [t], x.time_ ≤ time := by
  intro x hx
  rcases List.mem_append.mp hx with hx | hx
  · exact ((List.pairwise_append.mp h).2.2 x hx t (by simp)).trans ht
  · rwa [List.mem_singleton.mp hx]

theorem SplitsTo.linkRight {time : τ} {l : List (EventTree τ × Event τ)}
    {r : List (Event τ × EventTree τ)} {events : List (Event τ)} {res : EventTree τ × EventTree τ}
    {e : Event τ} {b : EventTree τ} (h : SplitsTo time l ((e, b) :: r) events res)
    (hb : ∀ x ∈ e :: b.toList, time < x.time_) : SplitsTo time l r (events ++ e :: b.toList) res := by
  obtain ⟨p, q, he, hp, hq, h1, h2⟩ := h
  refine ⟨p, q ++ e :: b.toList, by simp [he], hp, ?_, h1, ?_⟩
  · intro x hx
    exact (List.mem_append.mp hx).elim (hq x) (hb x)
  · rw [h2, EventTree.linkRight, linkRight_toList]
    simp [toList]

theorem SplitsTo.linkLeft {time : τ} {l : List (EventTree τ × Event τ)}
    {r : List (Event τ × EventTree τ)} {events : List (Event τ)} {res : EventTree τ × EventTree τ}
    {e : Event τ} {a : EventTree τ} (h : SplitsTo time ((a, e) :: l) r events res)
    (ha : ∀ x ∈ a.toList ++ [e], x.time_ ≤ time) :
    SplitsTo time l r (a.toList ++ e :: events) res := by
  obtain ⟨p, q, he, hp, hq, h1, h2⟩ := h
  refine ⟨a.toList ++ e :: p, q, by simp [he], ?_, hq, ?_, h2⟩
  · intro x hx
    rcases List.mem_append.mp hx with hx | hx
    · exact ha x (List.mem_append_left _ hx)
    · rcases List.mem_cons.mp hx with rfl | hx
      · exact ha x (by simp)
      · exact hp x hx
  · rw [h1, EventTree.linkLeft, linkLeft_toList]
    simp [toList]

theorem split_toList {time : τ} {l : List (EventTree τ × Event τ)}
    {r : List (Event τ × EventTree τ)} {t : EventTree τ} (h : Ordered Event.time_ t.toList) :
    SplitsTo time l r t.toList (split time l r t) := by
  fun_induction split time l r t with
  | case1 l r => exact ⟨[], [], by simp [toList], by simp, by simp, by simp, by simp⟩
  | case2 l r t b hlt =>
    refine ⟨[], t :: b.toList, rfl, by simp, later_right h hlt, by simp, ?_⟩
    rw [linkRight_toList]
    rfl
  | case3 l r t b hlt a' x b' hx ih =>
    have hrot : (node (node a' x b') t b).toList = (node a' x (node b' t b)).toList := by
      simp [toList]
    rw [hrot] at h ⊢
    exact (ih (List.pairwise_append.mp h).1).linkRight (later_right h hx)
  | case4 l r t b hlt a' x b' hx ih =>
    exact (ih (List.pairwise_append.mp h).1).linkRight (later_right h hlt)
  | case5 l r a t hle =>
    refine ⟨a.toList ++ [t], [], by simp [toList], earlier_left h (not_lt.mp hle), by simp, ?_,
      by simp⟩
    rw [linkLeft_toList]
    rfl
  | case6 l r a t hle a' x b' hx ih =>
    have hrot : (node a t (node a' x b')).toList = (node (node a t a') x b').toList := by
      simp [toList]
    rw [hrot] at h ⊢
    exact (ih (List.pairwise_cons.mp (List.pairwise_append.mp h).2.1).2).linkLeft (earlier_left h hx)
  | case7 l r a t hle a' x b' hx ih =>
    exact (ih (List.pairwise_cons.mp (List.pairwise_append.mp h).2.1).2).linkLeft
      (earlier_left h (not_lt.mp hle))

theorem insert_toList {n : Event τ} {s : SplayScheduler τ}
    (h : Ordered Event.time_ s.root_.toList) :
    (insert n s).root_.toList = insertLast Event.time_ n s.root_.toList := by
  unfold insert
  split
  · next hs => simp [hs, toList, insertLast]
  · obtain ⟨p, q, he, hp, hq, h1, h2⟩ : SplitsTo n.time_ [] [] _ _ := split_toList h
    rw [he, insertLast_append _ hp hq]
    simp only [EventTree.linkLeft, EventTree.linkRight, toList, List.nil_append,
      List.append_nil] at h1 h2
    simp only [toList, h1, h2]

omit [LinearOrder τ] in
theorem popLeft_toList (ll : EventTree τ) (e : Event τ) (b : EventTree τ) :
    (popLeft ll e b).1 :: (popLeft ll e b).2.toList = (node ll e b).toList := by
  fun_induction popLeft ll e b with
  | case1 e b => rfl
  | case2 e b x c => simp [toList]
  | case3 e b lll y d x c r ih =>
    simp only [toList] at ih ⊢
    rw [← List.cons_append, ih]
    simp

omit [LinearOrder τ] in
theorem deque_toList (s : SplayScheduler τ) :
    (deque s).1.root_.toList = s.root_.toList.tail ∧ (deque s).2 = s.root_.toList.head? := by
  unfold deque
  split
  · next hs => simp [hs, toList]
  · next hs => simp [hs, toList]
  · next ll e b' t b hs =>
    have hh := popLeft_toList ll e b'
    simp only [hs, toList] at hh ⊢
    rw [← hh]
    simp

omit [LinearOrder τ] in
theorem popSuccessor_toList (a : EventTree τ) (e : Event τ) (b : EventTree τ) :
    (popSuccessor a e b).1 :: (popSuccessor a e b).2.toList = (node a e b).toList := by
  fun_induction popSuccessor a e b with
  | case1 e b => rfl
  | case2 e b a' x b' r ih =>
    simp only [toList] at ih ⊢
    rw [← List.cons_append, ih]

omit [LinearOrder τ] in
theorem splice_toList (a b : EventTree τ) : (splice a b).toList = a.toList ++ b.toList := by
  unfold splice
  split
  · simp [toList]
  · next bl p br =>
    split
    · simp [toList]
    · have hh := popSuccessor_toList bl p br
      simp only [toList] at hh ⊢
      rw [hh]

/-! ### Cancelling by time and uid -/

/-- Earlier time, or equal time and smaller uid. -/
def Before (a b : Event τ) : Prop := a.time_ < b.time_ ∨ (a.time_ = b.time_ ∧ a.uid_ < b.uid_)

theorem Before.irrefl (a : Event τ) : ¬ Before a a := by simp [Before]

theorem Before.asymm {a b : Event τ} (h : Before a b) : ¬ Before b a := by
  rintro (h' | ⟨h', hu'⟩) <;> rcases h with h | ⟨h, hu⟩
  · exact lt_asymm h h'
  · exact h'.ne' h
  · exact h.ne' h'
  · omega

theorem nodup_of_before {l : List (Event τ)} (h : l.Pairwise Before) : l.Nodup := by
  refine List.Pairwise.imp ?_ h
  rintro a b hab rfl
  exact Before.irrefl a hab

theorem ordered_of_before {l : List (Event τ)} (h : l.Pairwise Before) : Ordered Event.time_ l :=
  h.imp fun hab => hab.elim le_of_lt (fun hh => hh.1.le)

theorem unlink_toList {e : Event τ} {t : EventTree τ} (h : t.toList.Pairwise Before) :
    (unlink e t).map toList = ListScheduler.unlink e t.toList := by
  induction t with
  | null => rfl
  | node a t b iha ihb =>
    obtain ⟨ha, hb, hab⟩ := List.pairwise_append.mp h
    obtain ⟨htb, hb⟩ := List.pairwise_cons.mp hb
    have hat : ∀ x ∈ a.toList, Before x t := fun x hx => hab x hx t (by simp)
    simp only [ListScheduler.unlink_eq] at iha ihb ⊢
    by_cases ht : t = e
    · subst ht
      have hta : t ∉ a.toList := fun hm => Before.irrefl t (hat t hm)
      simp [unlink, splice_toList, toList, List.erase_append_right _ hta]
    · have het : e ≠ t := Ne.symm ht
      by_cases hg : Before t e
      · have hea : e ∉ a.toList := fun hm => hg.asymm (hat e hm)
        have hg' : e.time_ > t.time_ ∨ (e.time_ = t.time_ ∧ e.uid_ > t.uid_) :=
          hg.imp id (fun hh => ⟨hh.1.symm, hh.2⟩)
        rw [unlink, if_neg ht, if_pos hg', Option.map_map]
        have hcomp : (toList ∘ fun b' => node a t b') = (fun l => a.toList ++ t :: l) ∘ toList := rfl
        rw [hcomp, ← Option.map_map, ihb hb]
        by_cases heb : e ∈ b.toList <;>
          simp [toList, heb, hea, het, List.erase_append_right _ hea, ht]
      · have heb : e ∉ b.toList := fun hm => hg (htb e hm)
        have hg' : ¬ (e.time_ > t.time_ ∨ (e.time_ = t.time_ ∧ e.uid_ > t.uid_)) :=
          fun hh => hg (hh.imp id (fun hh => ⟨hh.1.symm, hh.2⟩))
        rw [unlink, if_neg ht, if_neg hg', Option.map_map]
        have hcomp : (toList ∘ fun a' => node a' t b) = (fun l => l ++ t :: b.toList) ∘ toList := rfl
        rw [hcomp, ← Option.map_map, iha ha]
        by_cases hea : e ∈ a.toList
        · simp [toList, hea, List.erase_append_left _ hea]
        · simp [toList, hea, heb, het]

/-! ### Runs -/

/-- The tree holds the list's queue, in order; the uids handed out so far are below the counter
until it runs out. -/
structure Holds (s : Scheduler τ (SplayScheduler τ)) (q : Scheduler τ (ListScheduler τ)) : Prop where
  clock : s.clock_ = q.clock_
  uid : s.uid_ = q.uid_
  events : s.queue.root_.toList = q.queue.queue_
  before : q.queue.queue_.Pairwise Before
  size : s.queue.qsize_ = q.queue.queue_.length
  uid_pos : ∀ e ∈ q.queue.queue_, 0 < e.uid_
  uid_lt : q.uid_ < 0 ∨ (0 < q.uid_ ∧ q.uid_ < 2 ^ 63 ∧ ∀ e ∈ q.queue.queue_, e.uid_ < q.uid_)

theorem before_insertLast {e : Event τ} {l : List (Event τ)} (h : l.Pairwise Before)
    (hu : ∀ x ∈ l, x.uid_ < e.uid_) : (insertLast Event.time_ e l).Pairwise Before := by
  induction l with
  | nil => simp [insertLast]
  | cons x xs ih =>
    have hx := List.pairwise_cons.mp h
    by_cases he : e.time_ < x.time_
    · simp only [insertLast, he, if_true]
      refine List.pairwise_cons.mpr ⟨fun y hy => .inl ?_, h⟩
      rcases List.mem_cons.mp hy with rfl | hy
      · exact he
      · exact he.trans_le ((List.pairwise_cons.mp (ordered_of_before h)).1 y hy)
    · simp only [insertLast, he, if_false]
      refine List.pairwise_cons.mpr ⟨fun y hy => ?_, ih hx.2 (fun y hy => hu y (by simp [hy]))⟩
      rcases (mem_insertLast _).mp hy with rfl | hy
      · exact (not_lt.mp he).lt_or_eq.imp id (fun ht => ⟨ht, hu x (by simp)⟩)
      · exact hx.1 y hy

theorem Holds.insert {s : Scheduler τ (SplayScheduler τ)} {q : Scheduler τ (ListScheduler τ)}
    (h : Holds s q) (hu : ¬ q.uid_ < 0) (time : τ) :
    Holds
      { s with
        uid_ := Scheduler.nextUid s.uid_, queue := SplayScheduler.insert ⟨time, s.uid_⟩ s.queue }
      { q with
        uid_ := Scheduler.nextUid q.uid_, queue := ListScheduler.insert ⟨time, q.uid_⟩ q.queue } := by
  obtain ⟨hpos, hmax, hlt⟩ := h.uid_lt.resolve_left hu
  have hord : Ordered Event.time_ s.queue.root_.toList := h.events ▸ ordered_of_before h.before
  have hmem : ∀ e ∈ (ListScheduler.insert ⟨time, q.uid_⟩ q.queue).queue_,
      e = ⟨time, q.uid_⟩ ∨ e ∈ q.queue.queue_ := fun e he => (mem_insertLast _).mp he
  refine ⟨h.clock, by simp [h.uid], ?_, before_insertLast h.before hlt, ?_, ?_, ?_⟩
  · rw [insert_toList hord, h.events, h.uid]
    rfl
  · have hlen := (insertLast_perm Event.time_ ⟨time, q.uid_⟩ q.queue.queue_).length_eq
    have hsize : (SplayScheduler.insert ⟨time, s.uid_⟩ s.queue).qsize_ = s.queue.qsize_ + 1 := by
      unfold SplayScheduler.insert
      split <;> rfl
    rw [hsize, h.size, ListScheduler.insert, hlen]
    simp
  · intro e he
    rcases hmem e he with rfl | he
    · exact hpos
    · exact h.uid_pos e he
  · change Scheduler.nextUid q.uid_ < 0 ∨ 0 < Scheduler.nextUid q.uid_ ∧
      Scheduler.nextUid q.uid_ < 2 ^ 63 ∧
      ∀ e ∈ (ListScheduler.insert ⟨time, q.uid_⟩ q.queue).queue_, e.uid_ < Scheduler.nextUid q.uid_
    by_cases hlast : q.uid_ = 2 ^ 63 - 1
    · exact .inl (by rw [hlast, Scheduler.nextUid_last]; decide)
    · have hn := Scheduler.nextUid_of_lt hpos.le (by omega)
      refine .inr ⟨by omega, by omega, fun e he => ?_⟩
      rcases hmem e he with rfl | he
      · exact hn ▸ Int.lt_succ _
      · have := hlt e he
        omega

theorem Holds.of_sublist {s s' : Scheduler τ (SplayScheduler τ)}
    {q q' : Scheduler τ (ListScheduler τ)} (h : Holds s q) (hs : s'.clock_ = s.clock_)
    (hq : q'.clock_ = q.clock_) (hsu : s'.uid_ = s.uid_) (hqu : q'.uid_ = q.uid_)
    (hev : s'.queue.root_.toList = q'.queue.queue_) (hsub : q'.queue.queue_.Sublist q.queue.queue_)
    (hsize : s'.queue.qsize_ = q'.queue.queue_.length) : Holds s' q' where
  clock := by rw [hs, hq, h.clock]
  uid := by rw [hsu, hqu, h.uid]
  events := hev
  before := h.before.sublist hsub
  size := hsize
  uid_pos e he := h.uid_pos e (hsub.subset he)
  uid_lt := hqu ▸ h.uid_lt.imp id (fun hh => ⟨hh.1, hh.2.1, fun e he => hh.2.2 e (hsub.subset he)⟩)

theorem Holds.cancel {s : Scheduler τ (SplayScheduler τ)} {q : Scheduler τ (ListScheduler τ)}
    (h : Holds s q) (e : Event τ) :
    Option.Rel (fun a b => Holds { s with queue := a } { q with queue := b })
      (SplayScheduler.cancel e s.queue) (ListScheduler.cancel e q.queue) := by
  unfold SplayScheduler.cancel ListScheduler.cancel
  by_cases hu : e.uid_ ≤ 0
  · simpa [hu] using Option.Rel.some h
  · have hh := unlink_toList (e := e) (h.events ▸ h.before)
    rw [h.events, ListScheduler.unlink_eq] at hh
    rw [if_neg hu, if_neg hu, ListScheduler.unlink_eq]
    by_cases hm : e ∈ q.queue.queue_
    · rw [if_pos hm] at hh ⊢
      obtain ⟨t, ht, he⟩ := Option.map_eq_some_iff.mp hh
      rw [ht]
      refine .some (h.of_sublist rfl rfl rfl rfl he List.erase_sublist ?_)
      have := List.length_pos_of_mem hm
      simp only [List.length_erase_of_mem hm, h.size]
      omega
    · rw [if_neg hm, Option.map_eq_none_iff] at hh
      rw [if_neg hm, hh]
      exact .none

theorem Holds.deque {s : Scheduler τ (SplayScheduler τ)} {q : Scheduler τ (ListScheduler τ)}
    (h : Holds s q) :
    Holds { s with queue := (SplayScheduler.deque s.queue).1 }
      { q with queue := (ListScheduler.deque q.queue).1 } ∧
      (SplayScheduler.deque s.queue).2 = (ListScheduler.deque q.queue).2 := by
  obtain ⟨h1, h2⟩ := deque_toList s.queue
  rw [h.events] at h1 h2
  refine ⟨h.of_sublist rfl rfl rfl rfl ?_ ?_ ?_, by rw [h2, ListScheduler.deque_event]⟩
  · rw [h1, ListScheduler.deque_queue]
  · rw [ListScheduler.deque_queue]
    exact List.tail_sublist _
  · simp only [ListScheduler.deque_queue, ← h.events, List.length_tail]
    have hsize := h.size
    rw [← h.events] at hsize
    unfold SplayScheduler.deque
    split
    · next hs => simp [hs, hsize, toList]
    · next hs => simp [hs, hsize, toList]
    · next ll e b' t b hs =>
      simp only [hs, hsize, toList, List.length_append, List.length_cons, Nat.cast_add, Nat.cast_one]
      omega

variable [Add τ]

theorem Holds.step {s : Scheduler τ (SplayScheduler τ)} {q : Scheduler τ (ListScheduler τ)}
    (h : Holds s q) (op : Scheduler.Op τ) :
    Machine.Agree Holds (Scheduler.step queue s op) (Scheduler.step ListScheduler.queue q op) := by
  cases op with
  | schedule e delay =>
    simp only [Scheduler.step, Scheduler.schedule, h.uid, h.clock]
    by_cases he : e.uid_ > 0
    · simp only [he, if_true, Option.map_none]
      exact .none
    · by_cases hu : q.uid_ < 0
      · simp only [he, hu, if_true, if_false, Option.map_none]
        exact .none
      · simp only [he, hu, if_false]
        have hh := h.insert hu (q.clock_ + delay)
        rw [h.uid] at hh
        exact .some ⟨by simpa only [h.clock] using hh, rfl⟩
  | cancel e => exact Machine.agree_map (h.cancel e) fun _ _ hab => ⟨hab, rfl⟩
  | deque => exact .some h.deque
  | dispatch p =>
    simp only [Scheduler.step, Scheduler.dispatch, h.clock]
    by_cases hp : p.time_ < q.clock_
    · simp only [hp, if_true, Option.map_none]
      exact .none
    · simp only [hp, if_false, Option.map_some]
      exact .some ⟨{ h with clock := rfl }, rfl⟩

omit [Add τ] in
theorem holds_start (clock : τ) :
    Holds (Scheduler.start clock ⟨null, 0⟩) (Scheduler.start clock ⟨[]⟩) where
  clock := rfl
  uid := rfl
  events := rfl
  before := .nil
  size := rfl
  uid_pos e he := by simp [Scheduler.start] at he
  uid_lt := .inr (by simp [Scheduler.start])

/-- Both schedulers return the same events, or abort together. The tree then holds the list's
queue, in time order and for equal times in the order of the uids, and a queued event is found
by `cancel`. -/
theorem splay_refines_list (clock : τ) (ops : List (Scheduler.Op τ)) :
    let list := Machine.run (Scheduler.step ListScheduler.queue) (Scheduler.start clock ⟨[]⟩) ops
    let splay := Machine.run (Scheduler.step queue) (Scheduler.start clock ⟨null, 0⟩) ops
    splay.map Prod.snd = list.map Prod.snd ∧
      ∀ s os, splay = some (s, os) → ∃ q, list = some (q, os) ∧
        s.queue.root_.toList = q.queue.queue_ ∧ q.queue.queue_.Pairwise Before ∧
        q.queue.queue_.Nodup ∧
        ∀ e ∈ q.queue.queue_, ∃ s', cancel e s.queue = some s' ∧
          s'.root_.toList = q.queue.queue_.erase e := by
  intro list splay
  have h : Machine.Agree Holds splay list :=
    Machine.run_simulation (fun s q op hsq _ => hsq.step op) (holds_start clock)
      (Machine.admits_true _ _ _)
  refine ⟨h.outputs, fun s os hs => ?_⟩
  rw [hs] at h
  obtain ⟨q, hq, hsq⟩ := h.of_some
  refine ⟨q, hq, hsq.events, hsq.before, nodup_of_before hsq.before, fun e he => ?_⟩
  have hu : ¬ e.uid_ ≤ 0 := not_le.mpr (hsq.uid_pos e he)
  have hh := unlink_toList (e := e) (hsq.events ▸ hsq.before)
  rw [hsq.events, ListScheduler.unlink_of_mem he] at hh
  obtain ⟨t, ht, hte⟩ := Option.map_eq_some_iff.mp hh
  exact ⟨⟨t, s.queue.qsize_ - 1⟩, by simp [cancel, hu, ht], hte⟩

end SplayScheduler

end Ns2
