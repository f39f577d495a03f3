import Ns2.Common.Scheduler

/-! What a scheduler is for: the events wait in the order in which they were inserted, and the
first of the earliest ones is next. The list scheduler does this. -/

namespace Ns2

open StableOrder

namespace Agenda

variable {τ : Type*} [LinearOrder τ]

def next (a : List (Event τ)) : Option (Event τ) := a.find? fun x => a.all fun y => x.time_ ≤ y.time_

def queue : EventQueue τ (List (Event τ)) where
  insert e a := some (a ++ [e])
  cancel e a := if e.uid_ ≤ 0 then some a else if e ∈ a then some (a.erase e) else none
  deque a := some ((next a).elim a a.erase, next a)

/-- The list scheduler holds the agenda: sorted, and in each class of equal times unchanged. -/
structure Sorts (s : ListScheduler τ) (a : List (Event τ)) : Prop where
  ordered : Ordered Event.time_ s.queue_
  equal : ∀ t, keyClass Event.time_ t s.queue_ = keyClass Event.time_ t a

theorem Sorts.mem_iff {s : ListScheduler τ} {a : List (Event τ)} (h : Sorts s a) (e : Event τ) :
    e ∈ s.queue_ ↔ e ∈ a := by
  rw [← mem_of_keyClass Event.time_ (l := s.queue_), h.equal, mem_of_keyClass]

theorem keyClass_erase (e : Event τ) (t : τ) (a : List (Event τ)) :
    keyClass Event.time_ t (a.erase e) = (keyClass Event.time_ t a).erase e :=
  (List.erase_filter ..).symm

theorem Sorts.insert {s : ListScheduler τ} {a : List (Event τ)} (h : Sorts s a) (e : Event τ) :
    Sorts (ListScheduler.insert e s) (a ++ [e]) where
  ordered := h.ordered.insertLast _
  equal t := by
    rw [ListScheduler.insert, keyClass_insertLast _ h.ordered, h.equal]
    by_cases he : e.time_ = t <;> simp [keyClass, he]

theorem Sorts.erase {s : ListScheduler τ} {a : List (Event τ)} (h : Sorts s a) (e : Event τ) :
    Sorts ⟨s.queue_.erase e⟩ (a.erase e) where
  ordered := h.ordered.sublist List.erase_sublist
  equal t := by rw [keyClass_erase, keyClass_erase, h.equal]

/-- The head of the sorted queue is the first of the earliest events. -/
theorem Sorts.next {s : ListScheduler τ} {a : List (Event τ)} (h : Sorts s a) :
    next a = s.queue_.head? := by
  unfold Agenda.next
  cases hq : s.queue_ with
  | nil =>
    have ha : a = [] := List.eq_nil_iff_forall_not_mem.mpr fun x hx => by
      simpa [hq] using (h.mem_iff x).mpr hx
    simp [ha]
  | cons e q =>
    have hle : ∀ x ∈ a, e.time_ ≤ x.time_ := fun x hx => by
      have hm := (h.mem_iff x).mpr hx
      have hord := h.ordered
      rw [hq] at hm hord
      rcases List.mem_cons.mp hm with rfl | hm
      · exact le_rfl
      · exact (List.pairwise_cons.mp hord).1 x hm
    have he : e ∈ a := (h.mem_iff e).mp (by simp [hq])
    have hclass : (a.filter fun x => a.all fun y => x.time_ ≤ y.time_) =
        keyClass Event.time_ e.time_ a := by
      refine List.filter_congr fun x hx => ?_
      simp only [List.all_eq, decide_eq_true_eq, decide_eq_decide]
      exact ⟨fun hx' => (hx' e he).antisymm (hle x hx), fun hx' y hy => hx' ▸ hle y hy⟩
    rw [← List.head?_filter, hclass, ← h.equal, hq, keyClass, List.filter_cons_of_pos (by simp)]
    rfl

theorem Sorts.step {s : ListScheduler τ} {a : List (Event τ)} (h : Sorts s a)
    (op : EventQueue.Op τ) :
    Machine.Agree Sorts (EventQueue.step ListScheduler.queue s op)
      (EventQueue.step queue a op) := by
  cases op with
  | insert e => exact .some ⟨h.insert e, rfl⟩
  | cancel e =>
    refine Machine.agree_map (Q := Sorts) ?_ fun _ _ hst => ⟨hst, rfl⟩
    simp only [ListScheduler.queue, queue, ListScheduler.cancel, ListScheduler.unlink_eq, h.mem_iff]
    split_ifs
    · exact .some h
    · exact .some (h.erase e)
    · exact .none
  | deque =>
    refine .some ⟨?_, by rw [ListScheduler.deque_event, h.next]⟩
    rw [h.next]
    cases hq : s.queue_ with
    | nil => simpa [ListScheduler.deque, hq] using h
    | cons e q =>
      have he := h.erase e
      rw [hq, List.erase_cons_head] at he
      simpa [ListScheduler.deque, hq] using he

theorem sorts_nil : Sorts (τ := τ) ⟨[]⟩ [] := ⟨.nil, fun _ => rfl⟩

end Agenda

end Ns2
