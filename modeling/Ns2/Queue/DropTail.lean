import Mathlib

/-! What a queue object does for the link behind it, and the drop-tail queue. A queue is the list
of its packets, first in line first. -/

namespace Ns2

/-- A packet and its `ch->size()` in bytes. -/
structure LinkPacket where
  uid : ℕ
  size : ℕ
  deriving DecidableEq

/-- The virtual functions `enque` and `deque` of a queue over its own state. `enque` also returns
what it dropped. Packets are only moved, and `deque` finds one as long as there is one. -/
structure Discipline (σ : Type*) where
  enque : LinkPacket → σ → σ × List LinkPacket
  deque : σ → Option (LinkPacket × σ)
  packets : σ → List LinkPacket
  enque_packets : ∀ p s, (packets (enque p s).1 ++ (enque p s).2).Perm (p :: packets s)
  deque_packets : ∀ s p t, deque s = some (p, t) → (packets s).Perm (p :: packets t)
  deque_none : ∀ s, deque s = none → packets s = []

structure DropTail where
  qlim_ : ℤ
  mean_pktsize_ : ℤ
  /-- limits are in bytes -/
  qib_ : Bool
  drop_front_ : Bool
  q_ : List LinkPacket

namespace DropTail

def byteLength (q : List LinkPacket) : ℤ := (q.map fun p => (p.size : ℤ)).sum

def qlimBytes (s : DropTail) : ℤ := s.qlim_ * s.mean_pktsize_

/-- The queue would overflow if the packet was added. -/
def full (s : DropTail) (p : LinkPacket) : Bool :=
  (!s.qib_ && (s.q_.length : ℤ) + 1 ≥ s.qlim_) ||
    (s.qib_ && byteLength s.q_ + p.size ≥ s.qlimBytes)

def enque (p : LinkPacket) (s : DropTail) : DropTail × List LinkPacket :=
  if s.full p then
    if s.drop_front_ then
      -- `pp` is the packet itself if none waits
      match s.q_ ++ [p] with
      | [] => (s, [])
      | pp :: q => ({ s with q_ := q }, [pp])
    else (s, [p])
  else ({ s with q_ := s.q_ ++ [p] }, [])

def deque (s : DropTail) : Option (LinkPacket × DropTail) :=
  match s.q_ with
  | [] => none
  | p :: q => some (p, { s with q_ := q })

/-- What `enque` does to the list. -/
theorem enque_cases (p : LinkPacket) (s : DropTail) :
    (s.full p = true ∧ s.drop_front_ = false ∧ s.enque p = (s, [p])) ∨
    (∃ pp q, s.full p = true ∧ s.drop_front_ = true ∧ s.q_ ++ [p] = pp :: q ∧
      s.enque p = ({ s with q_ := q }, [pp])) ∨
    (s.full p = false ∧ s.enque p = ({ s with q_ := s.q_ ++ [p] }, [])) := by
  cases hfull : s.full p with
  | false => exact .inr (.inr ⟨rfl, by simp [enque, hfull]⟩)
  | true =>
    cases hfront : s.drop_front_ with
    | false => exact .inl ⟨rfl, rfl, by simp [enque, hfull, hfront]⟩
    | true =>
      cases hq : s.q_ ++ [p] with
      | nil => exact absurd hq (by simp)
      | cons pp q => exact .inr (.inl ⟨pp, q, rfl, rfl, rfl, by simp [enque, hfull, hfront, hq]⟩)

theorem enque_perm (p : LinkPacket) (s : DropTail) :
    ((s.enque p).1.q_ ++ (s.enque p).2).Perm (p :: s.q_) := by
  have happend : (s.q_ ++ [p]).Perm (p :: s.q_) := List.perm_append_comm
  obtain ⟨-, -, h⟩ | ⟨pp, q, -, -, hq, h⟩ | ⟨-, h⟩ := s.enque_cases p
  · rw [h]
    exact happend
  · rw [h]
    rw [hq] at happend
    exact List.perm_append_comm.trans happend
  · rw [h, List.append_nil]
    exact happend

theorem deque_eq_some {s t : DropTail} {p : LinkPacket} (h : s.deque = some (p, t)) :
    ∃ q, s.q_ = p :: q ∧ t = { s with q_ := q } := by
  unfold deque at h
  cases hq : s.q_ with
  | nil => simp [hq] at h
  | cons p' q =>
    rw [hq] at h
    obtain ⟨rfl, rfl⟩ := Prod.mk.inj (Option.some.inj h)
    exact ⟨q, rfl, rfl⟩

theorem deque_eq_none {s : DropTail} (h : s.deque = none) : s.q_ = [] := by
  unfold deque at h
  cases hq : s.q_ with
  | nil => rfl
  | cons p q => simp [hq] at h

def discipline : Discipline DropTail where
  enque := enque
  deque := deque
  packets := q_
  enque_packets := enque_perm
  deque_packets s p t h := by
    obtain ⟨q, hq, rfl⟩ := deque_eq_some h
    rw [hq]
  deque_none _ := deque_eq_none

end DropTail

end Ns2
