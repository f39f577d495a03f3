import Ns2.Lib.StableOrder
import Ns2.Lib.Machine

/-! The event scheduler's base class and its list implementation. Times are taken
in any ordered type with an addition; an event object is its time and its uid. -/

namespace Ns2

open StableOrder

structure Event (τ : Type*) where
  time_ : τ
  uid_ : ℤ
  deriving DecidableEq, Repr

/-- The virtual functions of class Scheduler over the state of the queue. `none` is an abort. -/
structure EventQueue (τ σ : Type*) where
  insert : Event τ → σ → Option σ
  cancel : Event τ → σ → Option σ
  deque : σ → Option (σ × Option (Event τ))

namespace EventQueue

inductive Op (τ : Type*) where
  | insert (e : Event τ)
  | cancel (e : Event τ)
  | deque

/-- One call of a virtual function, and the event it returns. -/
def step {τ σ : Type*} (q : EventQueue τ σ) (s : σ) : Op τ → Option (σ × Option (Event τ))
  | .insert e => (q.insert e s).map fun s' => (s', none)
  | .cancel e => (q.cancel e s).map fun s' => (s', none)
  | .deque => q.deque s

end EventQueue

structure Scheduler (τ σ : Type*) where
  clock_ : τ
  uid_ : ℤ
  queue : σ

namespace Scheduler

variable {τ σ : Type*} [LinearOrder τ] [Add τ]

/-- The two's complement successor of a `scheduler_uid_t`. -/
def nextUid (uid : ℤ) : ℤ := (uid + 1).bmod (2 ^ 64)

/-- The delay may be negative, which only prints a warning. -/
def schedule (q : EventQueue τ σ) (e : Event τ) (delay : τ) (s : Scheduler τ σ) :
    Option (Scheduler τ σ) :=
  if e.uid_ > 0 then none
  else if s.uid_ < 0 then none
  else
    let e' : Event τ := { time_ := s.clock_ + delay, uid_ := s.uid_ }
    (q.insert e' s.queue).map fun queue => { s with uid_ := nextUid s.uid_, queue }

/-- Sets the clock; the handler's own calls are further operations of the run. -/
def dispatch (p : Event τ) (s : Scheduler τ σ) : Option (Scheduler τ σ) :=
  if p.time_ < s.clock_ then none else some { s with clock_ := p.time_ }

inductive Op (τ : Type*) where
  | schedule (e : Event τ) (delay : τ)
  | cancel (e : Event τ)
  | deque
  | dispatch (p : Event τ)

/-- One operation, and the event it returns. -/
def step (q : EventQueue τ σ) (s : Scheduler τ σ) : Op τ → Option (Scheduler τ σ × Option (Event τ))
  | .schedule e delay => (schedule q e delay s).map fun s' => (s', none)
  | .cancel e => (q.cancel e s.queue).map fun queue => ({ s with queue }, none)
  | .deque => (q.deque s.queue).map fun r => ({ s with queue := r.1 }, r.2)
  | .dispatch p => (dispatch p s).map fun s' => (s', none)

/-- The static `uid_` starts at 1 and the clock at `SCHED_START`. -/
def start (clock : τ) (queue : σ) : Scheduler τ σ := { clock_ := clock, uid_ := 1, queue }

theorem nextUid_of_lt {uid : ℤ} (h0 : 0 ≤ uid) (h : uid < 2 ^ 63 - 1) : nextUid uid = uid + 1 := by
  unfold nextUid
  rw [Int.bmod_eq_of_le] <;> omega

theorem nextUid_last : nextUid (2 ^ 63 - 1) = -2 ^ 63 := by decide

end Scheduler

structure ListScheduler (τ : Type*) where
  queue_ : List (Event τ)

namespace ListScheduler

variable {τ : Type*} [LinearOrder τ]

/-- The loop stops at the first event that is strictly later. -/
def insert (e : Event τ) (s : ListScheduler τ) : ListScheduler τ :=
  { queue_ := insertLast Event.time_ e s.queue_ }

/-- The pointer loop of `cancel`; the end of the list is the abort. -/
def unlink (e : Event τ) : List (Event τ) → Option (List (Event τ))
  | [] => none
  | p :: next => if p = e then some next else (unlink e next).map (p :: ·)

def cancel (e : Event τ) (s : ListScheduler τ) : Option (ListScheduler τ) :=
  if e.uid_ ≤ 0 then some s
  else (unlink e s.queue_).map fun queue_ => { queue_ }

def deque (s : ListScheduler τ) : ListScheduler τ × Option (Event τ) :=
  match s.queue_ with
  | [] => (s, none)
  | e :: next => ({ queue_ := next }, some e)

def queue : EventQueue τ (ListScheduler τ) where
  insert e s := some (insert e s)
  cancel := cancel
  deque s := some (deque s)

theorem unlink_of_mem {e : Event τ} {l : List (Event τ)} (h : e ∈ l) :
    unlink e l = some (l.erase e) := by
  induction l with
  | nil => simp at h
  | cons p next ih =>
    by_cases hp : p = e
    · simp [unlink, hp]
    · have hn : e ∈ next := (List.mem_cons.mp h).resolve_left (Ne.symm hp)
      simp [unlink, hp, ih hn, List.erase_cons_tail]

theorem unlink_of_not_mem {e : Event τ} {l : List (Event τ)} (h : e ∉ l) : unlink e l = none := by
  induction l with
  | nil => rfl
  | cons p next ih =>
    have hp : p ≠ e := fun hp => h (by simp [hp])
    simp [unlink, hp, ih (fun hn => h (List.mem_cons_of_mem _ hn))]

theorem unlink_eq (e : Event τ) (l : List (Event τ)) :
    unlink e l = if e ∈ l then some (l.erase e) else none := by
  by_cases h : e ∈ l
  · rw [if_pos h, unlink_of_mem h]
  · rw [if_neg h, unlink_of_not_mem h]

omit [LinearOrder τ] in
theorem deque_queue (s : ListScheduler τ) : (deque s).1.queue_ = s.queue_.tail := by
  unfold deque
  split <;> simp_all

omit [LinearOrder τ] in
theorem deque_event (s : ListScheduler τ) : (deque s).2 = s.queue_.head? := by
  unfold deque
  split <;> simp_all

end ListScheduler

end Ns2
