import Ns2.Diffusion3.EventQueue

/-! In which runs the timer queue is ordered by the times at which its events are due. -/

namespace Ns2

namespace Timeval

/-- Microseconds since time zero. -/
def usecs (tv : Timeval) : ℤ := 1000000 * tv.tv_sec + tv.tv_usec

/-- The clock's times have less than a million microseconds, sums may have a million. -/
def Settled (tv : Timeval) : Prop := 0 ≤ tv.tv_usec ∧ tv.tv_usec ≤ 1000000

def Le (x y : Timeval) : Prop := x.tv_sec < y.tv_sec ∨ x.tv_sec = y.tv_sec ∧ x.tv_usec ≤ y.tv_usec

instance (tv : Timeval) : Decidable tv.Settled := inferInstanceAs (Decidable (_ ∧ _))

theorem Le.trans {x y z : Timeval} (hxy : x.Le y) (hyz : y.Le z) : x.Le z := by
  simp only [Le] at *
  omega

theorem le_of_cmp {x y : Timeval} (h : ¬ timevalCmp x y > 0) : x.Le y := by
  simp only [timevalCmp, Le] at *
  split_ifs at h <;> omega

theorem le_of_cmp_pos {x y : Timeval} (h : timevalCmp x y > 0) : y.Le x := by
  simp only [timevalCmp, Le] at *
  split_ifs at h <;> omega

theorem Le.usecs_le {x y : Timeval} (h : x.Le y) (hx : x.Settled) (hy : y.Settled) :
    x.usecs ≤ y.usecs := by
  simp only [Le, Settled, usecs] at *
  omega

@[simp] theorem usecs_add (tv : Timeval) (u : ℤ) : (timevalAddusecs tv u).usecs = tv.usecs + u := by
  simp only [timevalAddusecs]
  split_ifs <;> simp only [usecs] <;> omega

theorem Settled.add {tv : Timeval} (h : tv.Settled) {u : ℤ} (hu : 0 ≤ u) :
    (timevalAddusecs tv u).Settled := by
  simp only [timevalAddusecs, Settled] at *
  split_ifs <;> simp only <;> omega

end Timeval

namespace DiffusionEventQueue

def Fits (delay_msec : BitVec 32) : Prop := delay_msec.toInt * 1000 < 2 ^ 31

instance (d : BitVec 32) : Decidable (Fits d) := inferInstanceAs (Decidable (_ < _))

theorem product_eq_iff {d : BitVec 32} (hd : 0 ≤ d.toInt) :
    (d * 1000#32).toInt = d.toInt * 1000 ↔ Fits d := by
  have h : (d * 1000#32).toInt = (d.toInt * 1000).bmod (2 ^ 32) := by simp [BitVec.toInt_mul]
  rw [h, Fits, Int.bmod]
  simp only [Nat.reducePow, Nat.cast_ofNat]
  omega

theorem setDelay_usecs (now : Timeval) {d : BitVec 32} (hd : 0 ≤ d.toInt) :
    (setDelay now d).usecs = now.usecs + d.toInt * 1000 ↔ Fits d := by
  rw [← product_eq_iff hd, setDelay, Timeval.usecs_add, add_right_inj]

theorem setDelay_settled {now : Timeval} (hn : now.Settled) {d : BitVec 32} (hd : 0 ≤ d.toInt)
    (hf : Fits d) : (setDelay now d).Settled := by
  refine hn.add ?_
  rw [(product_eq_iff hd).mpr hf]
  omega

def Before (e f : QueueEvent) : Prop := e.tv_.Le f.tv_

theorem eqAddLoop_append (e : QueueEvent) (l : List QueueEvent) :
    (eqAddLoop e l).1 ++ (eqAddLoop e l).2 = l := by
  induction l with
  | nil => rfl
  | cons p l ih =>
    simp only [eqAddLoop]
    split_ifs
    · simpa using ih
    · rfl

theorem eqAdd_cons (e p : QueueEvent) (l : List QueueEvent) : eqAdd e (p :: l) =
    if eventCmp e p > 0 then p :: eqAdd e l else e :: p :: l := by
  by_cases h : eventCmp e p > 0
  · have happ := eqAddLoop_append e l
    simp only [eqAdd, eqAddLoop, h, if_true]
    revert happ
    obtain ⟨last, ptr⟩ := eqAddLoop e l
    intro happ
    cases last with
    | nil => simpa using happ
    | cons q last => simp
  · simp [eqAdd, eqAddLoop, h]

theorem eqAdd_perm (e : QueueEvent) (l : List QueueEvent) : (eqAdd e l).Perm (e :: l) := by
  induction l with
  | nil => simp [eqAdd, eqAddLoop]
  | cons p l ih =>
    rw [eqAdd_cons]
    split_ifs
    · exact (ih.cons p).trans (List.Perm.swap e p l)
    · rfl

theorem eqAdd_ordered (e : QueueEvent) {l : List QueueEvent} (hl : l.Pairwise Before) :
    (eqAdd e l).Pairwise Before := by
  induction l with
  | nil => simp [eqAdd, eqAddLoop]
  | cons p l ih =>
    obtain ⟨hp, hrest⟩ := List.pairwise_cons.mp hl
    rw [eqAdd_cons]
    split_ifs with h
    · refine List.pairwise_cons.mpr ⟨fun x hx => ?_, ih hrest⟩
      rcases List.mem_cons.mp ((eqAdd_perm e l).mem_iff.mp hx) with rfl | hx
      · exact Timeval.le_of_cmp_pos h
      · exact hp x hx
    · have he : Before e p := Timeval.le_of_cmp h
      refine List.pairwise_cons.mpr ⟨fun x hx => ?_, hl⟩
      rcases List.mem_cons.mp hx with rfl | hx
      · exact he
      · exact he.trans (hp x hx)

/-- The list without the event of the given number. -/
def without (n : ℕ) (l : List QueueEvent) : List QueueEvent := l.eraseP fun e => e.number == n

theorem map_without (n : ℕ) (l : List QueueEvent) :
    (without n l).map QueueEvent.number = (l.map QueueEvent.number).erase n := by
  induction l with
  | nil => rfl
  | cons e l ih =>
    simp only [without, List.eraseP_cons, List.map_cons, List.erase_cons] at ih ⊢
    cases e.number == n <;> simp [ih]

theorem removeLoop_eq (n : ℕ) (pe : QueueEvent) (l : List QueueEvent) : removeLoop n pe l =
    if n ∈ l.map QueueEvent.number then some (pe :: without n l) else none := by
  induction l generalizing pe with
  | nil => rfl
  | cons ce l ih =>
    by_cases h : ce.number = n
    · simp [removeLoop, without, h]
    · have h' : n ≠ ce.number := fun hn => h hn.symm
      by_cases hl : n ∈ l.map QueueEvent.number
      · simp only [removeLoop, h, if_false, ih, hl, if_true, Option.map_some, List.map_cons,
          List.mem_cons, or_true]
        simp [without, h]
      · simp [removeLoop, h, ih, hl, h']

theorem eqRemoveEvent_eq {q : DiffusionEventQueue} {n : ℕ}
    (hn : n ∈ q.head_.map QueueEvent.number) :
    q.eqRemoveEvent (some n) = some (true, { q with head_ := without n q.head_ }) := by
  obtain ⟨head, created⟩ := q
  cases head with
  | nil => simp at hn
  | cons pe rest =>
    by_cases h : pe.number = n
    · simp [eqRemoveEvent, without, h]
    · have hrest : n ∈ rest.map QueueEvent.number := by simpa [Ne.symm h] using hn
      simp only [eqRemoveEvent, h, if_false, removeLoop_eq, hrest, if_true]
      simp [without, h]

theorem mem_of_find {hdl : ℤ} {l : List QueueEvent} {e : QueueEvent}
    (he : eqFindEvent hdl l = some e) : e ∈ l ∧ e.handle_ = hdl :=
  ⟨List.mem_of_find?_eq_some he, by simpa using List.find?_some he⟩

end DiffusionEventQueue

/-- What a caller asked for. -/
structure Timer where
  handle : ℤ
  payload : ℕ
  due : ℤ
  deriving DecidableEq

/-- The queue beside the numbers of the events that are pending and what was asked for each. -/
structure EventBook where
  queue : DiffusionEventQueue
  pending : List ℕ
  asked : ℕ → Timer

namespace EventBook

open DiffusionEventQueue

def new : EventBook := ⟨.new, [], fun _ => ⟨0, 0, 0⟩⟩

/-- The pending events and the requests after a call. -/
def note (b : EventBook) : EventCall → List ℕ × (ℕ → Timer)
  | .eqAddAfter now hdl payload delay_msec =>
    (b.queue.created :: b.pending, Function.update b.asked b.queue.created
      ⟨hdl, payload, now.usecs + 1000 * delay_msec.toInt⟩)
  | .eqPop => ((b.queue.eqPop.1.map QueueEvent.number).elim b.pending b.pending.erase, b.asked)
  | .eqRemove hdl =>
    (((eqFindEvent hdl b.queue.head_).map QueueEvent.number).elim b.pending b.pending.erase,
      b.asked)
  | .eqRemoveEvent e => (e.elim b.pending b.pending.erase, b.asked)

def step (b : EventBook) (c : EventCall) : Option (EventBook × EventReply) :=
  (b.queue.call c).map fun r => (⟨r.1, (b.note c).1, (b.note c).2⟩, r.2)

/-- The clock is settled, delays are not negative, and only an event of the queue is removed. -/
def Proper (b : EventBook) : EventCall → Prop
  | .eqAddAfter now _ _ delay_msec => now.Settled ∧ 0 ≤ delay_msec.toInt
  | .eqRemoveEvent (some n) => n ∈ b.queue.head_.map QueueEvent.number
  | _ => True

instance (b : EventBook) (c : EventCall) : Decidable (b.Proper c) := by
  cases c with
  | eqAddAfter now hdl payload d => exact inferInstanceAs (Decidable (_ ∧ _))
  | eqPop => exact .isTrue trivial
  | eqRemove hdl => exact .isTrue trivial
  | eqRemoveEvent e =>
    cases e with
    | none => exact .isTrue trivial
    | some n => exact inferInstanceAs (Decidable (_ ∈ _))

def CallFits (_ : EventBook) : EventCall → Prop
  | .eqAddAfter _ _ _ delay_msec => Fits delay_msec
  | _ => True

/-- The queue is in the order of due times, holds each pending event once and with the handle, the
payload and the time that were asked for, and gives out an event that none is due before. -/
structure Right (b : EventBook) : Prop where
  sorted : b.queue.head_.Pairwise fun e f => e.tv_.usecs ≤ f.tv_.usecs
  asked : ∀ e ∈ b.queue.head_, ⟨e.handle_, e.payload_, e.tv_.usecs⟩ = b.asked e.number
  kept : (b.queue.head_.map QueueEvent.number).Perm b.pending
  once : b.pending.Nodup
  least : ∀ e, b.queue.eqPop.1 = some e → ∀ f ∈ b.queue.head_, e.tv_.usecs ≤ f.tv_.usecs

structure Kept (b : EventBook) : Prop where
  ordered : b.queue.head_.Pairwise Before
  settled : ∀ e ∈ b.queue.head_, e.tv_.Settled
  asked : ∀ e ∈ b.queue.head_, ⟨e.handle_, e.payload_, e.tv_.usecs⟩ = b.asked e.number
  kept : (b.queue.head_.map QueueEvent.number).Perm b.pending
  once : b.pending.Nodup
  old : ∀ n ∈ b.pending, n < b.queue.created

theorem Kept.right {b : EventBook} (h : b.Kept) : b.Right := by
  have hs : b.queue.head_.Pairwise fun e f => e.tv_.usecs ≤ f.tv_.usecs :=
    h.ordered.imp_of_mem fun he hf hb => hb.usecs_le (h.settled _ he) (h.settled _ hf)
  refine ⟨hs, h.asked, h.kept, h.once, fun e he f hf => ?_⟩
  obtain ⟨rest, hl⟩ : ∃ rest, b.queue.head_ = e :: rest := by
    cases hl : b.queue.head_ with
    | nil => simp [eqPop, hl] at he
    | cons e' rest => exact ⟨rest, by simpa [eqPop, hl] using he⟩
  rw [hl] at hs hf
  rcases List.mem_cons.mp hf with rfl | hf
  · rfl
  · exact (List.pairwise_cons.mp hs).1 f hf

theorem kept_new : new.Kept := by
  constructor <;> simp [new, DiffusionEventQueue.new]

/-- A shorter list with one event less. -/
theorem Kept.erase {b : EventBook} (h : b.Kept) {l : List QueueEvent} {n : ℕ}
    (hl : l.Sublist b.queue.head_)
    (hn : l.map QueueEvent.number = (b.queue.head_.map QueueEvent.number).erase n) :
    Kept ⟨{ b.queue with head_ := l }, b.pending.erase n, b.asked⟩ where
  ordered := h.ordered.sublist hl
  settled e he := h.settled e (hl.subset he)
  asked e he := h.asked e (hl.subset he)
  kept := by
    rw [hn]
    exact h.kept.erase n
  once := h.once.erase n
  old m hm := h.old m (List.mem_of_mem_erase hm)

theorem Kept.remove {b : EventBook} (h : b.Kept) (n : ℕ) :
    Kept ⟨{ b.queue with head_ := without n b.queue.head_ }, b.pending.erase n, b.asked⟩ :=
  h.erase List.eraseP_sublist (map_without n _)

theorem Kept.add {b : EventBook} (h : b.Kept) {now : Timeval} (hnow : now.Settled) (hdl : ℤ)
    (payload : ℕ) {d : BitVec 32} (hd : 0 ≤ d.toInt) (hf : Fits d) :
    Kept ⟨b.queue.eqAddAfter now hdl payload d, b.queue.created :: b.pending,
      Function.update b.asked b.queue.created ⟨hdl, payload, now.usecs + 1000 * d.toInt⟩⟩ := by
  have hmem : ∀ e ∈ (b.queue.eqAddAfter now hdl payload d).head_,
      e = ⟨b.queue.created, setDelay now d, hdl, payload⟩ ∨ e ∈ b.queue.head_ := fun e he =>
    List.mem_cons.mp ((eqAdd_perm _ _).mem_iff.mp he)
  have hold : ∀ e ∈ b.queue.head_, e.number ≠ b.queue.created := fun e he =>
    (h.old _ (h.kept.mem_iff.mp (List.mem_map_of_mem he))).ne
  constructor
  · exact eqAdd_ordered _ h.ordered
  · intro e he
    rcases hmem e he with rfl | he
    · exact setDelay_settled hnow hd hf
    · exact h.settled e he
  · intro e he
    rcases hmem e he with rfl | he
    · simp [(setDelay_usecs now hd).mpr hf, mul_comm]
    · simpa [Function.update_of_ne (hold e he)] using h.asked e he
  · exact ((eqAdd_perm _ _).map _).trans (h.kept.cons _)
  · exact List.nodup_cons.mpr ⟨fun hm => lt_irrefl _ (h.old _ hm), h.once⟩
  · intro n hn
    rcases List.mem_cons.mp hn with rfl | hn
    · exact Nat.lt_succ_self _
    · exact Nat.lt_succ_of_lt (h.old n hn)

theorem Kept.step {b : EventBook} (h : b.Kept) {c : EventCall} (hc : b.Proper c)
    (hf : b.CallFits c) : ∃ b' r, b.step c = some (b', r) ∧ b'.Kept := by
  cases c with
  | eqAddAfter now hdl payload d => exact ⟨_, _, rfl, h.add hc.1 hdl payload hc.2 hf⟩
  | eqPop =>
    refine ⟨_, _, rfl, ?_⟩
    cases hl : b.queue.head_ with
    | nil =>
      have hb : (⟨{ b.queue with head_ := [] }, b.pending, b.asked⟩ : EventBook) = b := by
        rw [← hl]
      simpa [note, DiffusionEventQueue.eqPop, hl, hb] using h
    | cons e rest =>
      have := h.erase (n := e.number) (l := rest) (by simp [hl]) (by simp [hl])
      simpa [note, DiffusionEventQueue.eqPop, hl] using this
  | eqRemove hdl =>
    cases hl : eqFindEvent hdl b.queue.head_ with
    | none => exact ⟨b, .removed false, by simp [EventBook.step, call, eqRemove, note, hl], h⟩
    | some e =>
      have hn := List.mem_map_of_mem (f := QueueEvent.number) (mem_of_find hl).1
      exact ⟨_, .removed true,
        by simp [EventBook.step, call, eqRemove, note, hl, eqRemoveEvent_eq hn], h.remove e.number⟩
  | eqRemoveEvent e =>
    cases e with
    | none => exact ⟨b, .removed false, by simp [EventBook.step, call, eqRemoveEvent, note], h⟩
    | some n =>
      exact ⟨_, .removed true, by simp [EventBook.step, call, note, eqRemoveEvent_eq hc],
        h.remove n⟩

theorem breaks {b b' : EventBook} {c : EventCall} {r : EventReply} (hc : b.Proper c)
    (hf : ¬ b.CallFits c) (hs : b.step c = some (b', r)) : ¬ b'.Right := by
  cases c with
  | eqAddAfter now hdl payload d =>
    intro hr
    obtain ⟨rfl, -⟩ := Prod.mk.inj (Option.some.inj hs)
    have := hr.asked ⟨b.queue.created, setDelay now d, hdl, payload⟩
      ((eqAdd_perm _ _).mem_iff.mpr List.mem_cons_self)
    refine hf ((setDelay_usecs now hc.2).mp ?_)
    simpa [note, mul_comm] using this
  | eqPop => exact absurd trivial hf
  | eqRemove hdl => exact absurd trivial hf
  | eqRemoveEvent e => exact absurd trivial hf

/-- A run keeps the queue right exactly when each delay in microseconds fits an `int`. -/
theorem always_right_iff {calls : List EventCall}
    (hcalls : Machine.Admits EventBook.step Proper new calls) :
    Machine.Always EventBook.step Right new calls ↔
      Machine.Admits EventBook.step CallFits new calls :=
  Machine.always_iff_of_admits (fun _ h => h.right) (fun _ _ h hc hf => h.step hc hf)
    (fun _ _ _ _ _ hc hf hs => breaks hc hf hs) kept_new hcalls

theorem always_right_iff_two :
    Machine.Always EventBook.step Right new
        [.eqAddAfter ⟨5, 999999⟩ 1 7 3, .eqAddAfter ⟨5, 0⟩ 2 8 1, .eqPop, .eqRemove 1] ↔
      Machine.Admits EventBook.step CallFits new
        [.eqAddAfter ⟨5, 999999⟩ 1 7 3, .eqAddAfter ⟨5, 0⟩ 2 8 1, .eqPop, .eqRemove 1] :=
  always_right_iff (by decide)

/-- A delay of 2147484 milliseconds, about 36 minutes, is due before it is asked for. -/
theorem due_before_now :
    Machine.Admits EventBook.step Proper new [.eqAddAfter ⟨10, 0⟩ 1 0 2147484] ∧
      ¬ Machine.Always EventBook.step Right new [.eqAddAfter ⟨10, 0⟩ 1 0 2147484] := by
  refine ⟨by decide, fun h => ?_⟩
  obtain ⟨-, b, r, hs, hb⟩ := h
  exact breaks (by decide) (by simp [CallFits, Fits]) hs hb

end EventBook

end Ns2
