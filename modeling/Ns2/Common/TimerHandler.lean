import Ns2.Common.Scheduler

/-! Timers over a scheduler. An event is an object here: the timers' own `event_`s and all others
are the two parts of a sum. -/

namespace Ns2

/-- The virtual functions over the pointers in a scheduler's queue, and the pointers that are in
it. `unlink` is `cancel` for an event with a positive uid, `none` where it aborts. -/
structure PointerQueue (ε τ σ : Type*) where
  insert : (ε → Event τ) → ε → σ → σ
  unlink : ε → σ → Option σ
  deque : σ → Option (ε × σ)
  events : σ → List ε
  insert_perm : ∀ ev e s, (events (insert ev e s)).Perm (e :: events s)
  unlink_perm : ∀ e s, e ∈ events s → ∃ s', unlink e s = some s' ∧ (events s).Perm (e :: events s')
  deque_perm : ∀ s e s', deque s = some (e, s') → (events s).Perm (e :: events s')

namespace ListScheduler

variable {ε τ : Type*} [DecidableEq ε] [LinearOrder τ]

/-- The pointer loop of `cancel`. -/
def unlinkPointer (e : ε) : List ε → Option (List ε)
  | [] => none
  | p :: next => if p = e then some next else (unlinkPointer e next).map (p :: ·)

def dequePointer : List ε → Option (ε × List ε)
  | [] => none
  | e :: next => some (e, next)

theorem unlinkPointer_perm {e : ε} {l : List ε} (h : e ∈ l) :
    ∃ l', unlinkPointer e l = some l' ∧ l.Perm (e :: l') := by
  induction l with
  | nil => cases h
  | cons p next ih =>
    by_cases hp : p = e
    · exact ⟨next, by rw [unlinkPointer, if_pos hp], by rw [hp]⟩
    · obtain ⟨l', h1, h2⟩ := ih ((List.mem_cons.mp h).resolve_left (Ne.symm hp))
      refine ⟨p :: l', by rw [unlinkPointer, if_neg hp, h1]; rfl, ?_⟩
      exact (h2.cons p).trans (List.Perm.swap e p l')

/-- The list scheduler's functions. -/
def pointers : PointerQueue ε τ (List ε) where
  insert ev e := StableOrder.insertLast (fun p => (ev p).time_) e
  unlink := unlinkPointer
  deque := dequePointer
  events := id
  insert_perm _ e := StableOrder.insertLast_perm _ e
  unlink_perm _ _ := unlinkPointer_perm
  deque_perm s e s' h := by
    cases s with
    | nil => cases h
    | cons p next =>
      cases h
      exact .rfl

end ListScheduler

inductive TimerStatus where
  | TIMER_IDLE
  | TIMER_PENDING
  | TIMER_HANDLING
  deriving DecidableEq

open TimerStatus

/-- Where the program aborts. -/
inductive Abort where
  | uidNotValid
  | uidExhausted
  | backwards
  | unlinked
  | notScheduled
  | couldNotSchedule
  | notPending

/-- `expiring` are the timers whose `expire` is running, the innermost call first. -/
structure Timers (ι κ τ σ : Type*) where
  clock_ : τ
  uid_ : ℤ
  queue : σ
  event : ι ⊕ κ → Event τ
  status_ : ι → TimerStatus
  expiring : List ι

namespace Timers

variable {ι κ τ σ : Type*} [DecidableEq ι] [DecidableEq κ] [LinearOrder τ] [Add τ]

def start [Zero τ] (clock : τ) (queue : σ) : Timers ι κ τ σ where
  clock_ := clock
  uid_ := 1
  queue := queue
  event _ := ⟨0, 0⟩
  status_ _ := TIMER_IDLE
  expiring := []

def setStatus (s : Timers ι κ τ σ) (i : ι) (status : TimerStatus) : Timers ι κ τ σ :=
  { s with status_ := Function.update s.status_ i status }

variable (q : PointerQueue (ι ⊕ κ) τ σ)

/-- `Scheduler::schedule`. -/
def schedule (s : Timers ι κ τ σ) (e : ι ⊕ κ) (delay : τ) : Except Abort (Timers ι κ τ σ) :=
  if (s.event e).uid_ > 0 then .error .uidNotValid
  else if s.uid_ < 0 then .error .uidExhausted
  else
    let event := Function.update s.event e ⟨s.clock_ + delay, s.uid_⟩
    .ok { s with
      uid_ := Scheduler.nextUid s.uid_
      event := event
      queue := q.insert event e s.queue }

/-- `Scheduler::cancel`. -/
def unschedule (s : Timers ι κ τ σ) (e : ι ⊕ κ) : Except Abort (Timers ι κ τ σ) :=
  if (s.event e).uid_ ≤ 0 then .ok s
  else
    match q.unlink e s.queue with
    | none => .error .unlinked
    | some queue => .ok { s with
        queue := queue
        event := Function.update s.event e ⟨(s.event e).time_, -(s.event e).uid_⟩ }

def cancel (s : Timers ι κ τ σ) (i : ι) : Except Abort (Timers ι κ τ σ) :=
  if s.status_ i ≠ TIMER_PENDING then .error .notScheduled
  else (unschedule q s (.inl i)).map (·.setStatus i TIMER_IDLE)

def forceCancel (s : Timers ι κ τ σ) (i : ι) : Except Abort (Timers ι κ τ σ) :=
  if s.status_ i = TIMER_PENDING then (unschedule q s (.inl i)).map (·.setStatus i TIMER_IDLE)
  else .ok s

def sched (s : Timers ι κ τ σ) (i : ι) (delay : τ) : Except Abort (Timers ι κ τ σ) :=
  if s.status_ i ≠ TIMER_IDLE then .error .couldNotSchedule
  else (schedule q s (.inl i) delay).map (·.setStatus i TIMER_PENDING)

def resched (s : Timers ι κ τ σ) (i : ι) (delay : τ) : Except Abort (Timers ι κ τ σ) :=
  (if s.status_ i = TIMER_PENDING then unschedule q s (.inl i) else .ok s).bind fun s =>
    (schedule q s (.inl i) delay).map (·.setStatus i TIMER_PENDING)

/-- `handle` up to the call of `expire`. -/
def handle (s : Timers ι κ τ σ) (i : ι) : Except Abort (Timers ι κ τ σ) :=
  if s.status_ i ≠ TIMER_PENDING then .error .notPending
  else .ok { s.setStatus i TIMER_HANDLING with expiring := i :: s.expiring }

/-- `handle` after the call of `expire`, in the innermost call. -/
def expired (s : Timers ι κ τ σ) : Timers ι κ τ σ :=
  match s.expiring with
  | [] => s
  | i :: rest =>
    let s := { s with expiring := rest }
    if s.status_ i = TIMER_HANDLING then s.setStatus i TIMER_IDLE else s

/-- `Scheduler::dispatch`; what other handlers do are further operations. -/
def dispatch (s : Timers ι κ τ σ) (e : ι ⊕ κ) : Except Abort (Timers ι κ τ σ) :=
  let p := s.event e
  if p.time_ < s.clock_ then .error .backwards
  else
    let s := { s with
      clock_ := p.time_
      event := Function.update s.event e ⟨p.time_, -p.uid_⟩ }
    match e with
    | .inl i => s.handle i
    | .inr _ => .ok s

/-- One round of `Scheduler::run`. -/
def runOnce (s : Timers ι κ τ σ) : Except Abort (Timers ι κ τ σ) :=
  match q.deque s.queue with
  | none => .ok s
  | some (e, queue) => dispatch { s with queue := queue } e

/-- What a timer, its owner and the scheduler do, at the top level or from inside `expire`; the
last two are the calls of all others. -/
inductive Op (ι κ τ : Type*) where
  | sched (i : ι) (delay : τ)
  | resched (i : ι) (delay : τ)
  | cancel (i : ι)
  | forceCancel (i : ι)
  | dispatch
  | expired
  | scheduleOther (k : κ) (delay : τ)
  | cancelOther (k : κ)

def step (s : Timers ι κ τ σ) : Op ι κ τ → Except Abort (Timers ι κ τ σ)
  | .sched i delay => sched q s i delay
  | .resched i delay => resched q s i delay
  | .cancel i => cancel q s i
  | .forceCancel i => forceCancel q s i
  | .dispatch => runOnce q s
  | .expired => .ok s.expired
  | .scheduleOther k delay => schedule q s (.inr k) delay
  | .cancelOther k => unschedule q s (.inr k)

/-- A run stops where the program aborts. -/
def run (s : Timers ι κ τ σ) : List (Op ι κ τ) → Except Abort (Timers ι κ τ σ)
  | [] => .ok s
  | op :: ops => (step q s op).bind fun s => run s ops

/-! ### The queue and the uids -/

variable {q}

/-- The events in the queue are those with a positive uid, each once. -/
structure Queued (q : PointerQueue (ι ⊕ κ) τ σ) (s : Timers ι κ τ σ) : Prop where
  nodup : (q.events s.queue).Nodup
  uid_iff : ∀ e, e ∈ q.events s.queue ↔ 0 < (s.event e).uid_
  uid : s.uid_ < 0 ∨ 0 < s.uid_ ∧ s.uid_ < 2 ^ 63

theorem nextUid_range {uid : ℤ} (h0 : 0 < uid) (h : uid < 2 ^ 63) :
    Scheduler.nextUid uid < 0 ∨ 0 < Scheduler.nextUid uid ∧ Scheduler.nextUid uid < 2 ^ 63 := by
  by_cases hlast : uid = 2 ^ 63 - 1
  · exact .inl (by rw [hlast, Scheduler.nextUid_last]; decide)
  · have hn := Scheduler.nextUid_of_lt h0.le (by omega)
    exact .inr (by omega)

theorem Queued.schedule {s : Timers ι κ τ σ} (h : Queued q s) (e : ι ⊕ κ) (delay : τ) :
    (schedule q s e delay = .error .uidNotValid ∧ e ∈ q.events s.queue) ∨
    schedule q s e delay = .error .uidExhausted ∨
    ∃ s', schedule q s e delay = .ok s' ∧ Queued q s' ∧ s'.status_ = s.status_ ∧
      ∀ x, x ∈ q.events s'.queue ↔ x = e ∨ x ∈ q.events s.queue := by
  rw [Timers.schedule]
  by_cases he : (s.event e).uid_ > 0
  · rw [if_pos he]
    exact .inl ⟨rfl, (h.uid_iff e).mpr he⟩
  rw [if_neg he]
  by_cases hu : s.uid_ < 0
  · rw [if_pos hu]
    exact .inr (.inl rfl)
  rw [if_neg hu]
  obtain ⟨hpos, hlt⟩ := h.uid.resolve_left hu
  have hnew : e ∉ q.events s.queue := fun hm => he ((h.uid_iff e).mp hm)
  have hperm := q.insert_perm (Function.update s.event e ⟨s.clock_ + delay, s.uid_⟩) e s.queue
  refine .inr (.inr ⟨_, rfl, ⟨?_, fun x => ?_, nextUid_range hpos hlt⟩, rfl, fun x => ?_⟩)
  · exact hperm.nodup_iff.mpr (List.nodup_cons.mpr ⟨hnew, h.nodup⟩)
  · apply hperm.mem_iff.trans
    show _ ↔ 0 < (Function.update s.event e ⟨s.clock_ + delay, s.uid_⟩ x).uid_
    rw [List.mem_cons]
    by_cases hx : x = e
    · simp [hx, hpos]
    · rw [Function.update_of_ne hx, ← h.uid_iff x]
      simp [hx]
  · exact hperm.mem_iff.trans List.mem_cons

theorem Queued.unschedule {s : Timers ι κ τ σ} (h : Queued q s) (e : ι ⊕ κ) :
    ∃ s', unschedule q s e = .ok s' ∧ Queued q s' ∧ s'.status_ = s.status_ ∧
      ∀ x, x ∈ q.events s'.queue ↔ x ≠ e ∧ x ∈ q.events s.queue := by
  rw [Timers.unschedule]
  by_cases he : (s.event e).uid_ ≤ 0
  · rw [if_pos he]
    have hout : e ∉ q.events s.queue := fun hm => not_lt.mpr he ((h.uid_iff e).mp hm)
    refine ⟨s, rfl, h, rfl, fun x => ⟨fun hx => ⟨?_, hx⟩, And.right⟩⟩
    rintro rfl
    exact hout hx
  · rw [if_neg he]
    obtain ⟨queue, h1, hperm⟩ := q.unlink_perm e s.queue ((h.uid_iff e).mpr (not_le.mp he))
    obtain ⟨hnot, hnd⟩ := List.nodup_cons.mp (hperm.nodup_iff.mp h.nodup)
    have hmem : ∀ x, x ∈ q.events queue ↔ x ≠ e ∧ x ∈ q.events s.queue := by
      intro x
      rw [hperm.mem_iff, List.mem_cons]
      constructor
      · intro hx
        exact ⟨fun hxe => hnot (hxe ▸ hx), .inr hx⟩
      · rintro ⟨hne, hx⟩
        exact hx.resolve_left hne
    rw [h1]
    refine ⟨_, rfl, ⟨hnd, fun x => ?_, h.uid⟩, rfl, hmem⟩
    apply (hmem x).trans
    show _ ↔ 0 < (Function.update s.event e ⟨(s.event e).time_, -(s.event e).uid_⟩ x).uid_
    by_cases hx : x = e
    · simp only [hx, ne_eq, not_true_eq_false, false_and, Function.update_self, false_iff]
      omega
    · rw [Function.update_of_ne hx, ← h.uid_iff x]
      simp [hx]

/-! ### The status -/

structure Inv (q : PointerQueue (ι ⊕ κ) τ σ) (s : Timers ι κ τ σ) : Prop extends Queued q s where
  status : ∀ i, s.status_ i = TIMER_PENDING ↔ .inl i ∈ q.events s.queue

/-- A timer's status follows its event. -/
theorem Queued.setStatus {s s' : Timers ι κ τ σ} (h : Inv q s) (h' : Queued q s')
    (hkeep : s'.status_ = s.status_) (i : ι) {status : TimerStatus}
    (hi : status = TIMER_PENDING ↔ .inl i ∈ q.events s'.queue)
    (hother : ∀ j, j ≠ i → (.inl j ∈ q.events s'.queue ↔ .inl j ∈ q.events s.queue)) :
    Inv q (s'.setStatus i status) := by
  refine ⟨⟨h'.nodup, h'.uid_iff, h'.uid⟩, fun j => ?_⟩
  show Function.update s'.status_ i status j = TIMER_PENDING ↔ .inl j ∈ q.events s'.queue
  by_cases hj : j = i
  · rw [hj, Function.update_self]
    exact hi
  · rw [Function.update_of_ne hj, hkeep, hother j hj]
    exact h.status j

/-- What a step gives: the invariant, or an abort that is not the scheduler's. -/
def Good (q : PointerQueue (ι ⊕ κ) τ σ) : Except Abort (Timers ι κ τ σ) → Prop
  | .ok s => Inv q s
  | .error a => a ≠ .uidNotValid ∧ a ≠ .unlinked ∧ a ≠ .notPending

theorem Inv.unscheduled {s : Timers ι κ τ σ} (h : Inv q s) (i : ι) {status : TimerStatus}
    (hs : status ≠ TIMER_PENDING) : Good q ((Timers.unschedule q s (.inl i)).map (·.setStatus i status)) := by
  obtain ⟨s', h1, h2, h3, h4⟩ := h.unschedule (.inl i)
  rw [h1]
  apply Queued.setStatus h h2 h3
  · simp [h4, hs]
  · intro j hj
    rw [h4]
    simp [hj]

theorem Inv.scheduled {s s' : Timers ι κ τ σ} (h : Inv q s) (h' : Queued q s')
    (hkeep : s'.status_ = s.status_) {i : ι} (delay : τ) (hout : .inl i ∉ q.events s'.queue)
    (hother : ∀ j, j ≠ i → (.inl j ∈ q.events s'.queue ↔ .inl j ∈ q.events s.queue)) :
    Good q ((Timers.schedule q s' (.inl i) delay).map (·.setStatus i TIMER_PENDING)) := by
  rcases h'.schedule (.inl i) delay with ⟨-, hin⟩ | h1 | ⟨t, h1, h2, h3, h4⟩
  · exact absurd hin hout
  · rw [h1]
    exact ⟨nofun, nofun, nofun⟩
  · rw [h1]
    apply Queued.setStatus h h2 (h3.trans hkeep)
    · simp [h4]
    · intro j hj
      rw [h4, hother j hj]
      simp [hj]

theorem Inv.dispatch {s : Timers ι κ τ σ} (h : Inv q s) {e : ι ⊕ κ} {queue : σ}
    (hd : q.deque s.queue = some (e, queue)) :
    Good q (Timers.dispatch { s with queue := queue } e) := by
  have hperm := q.deque_perm _ _ _ hd
  obtain ⟨hnot, hnd⟩ := List.nodup_cons.mp (hperm.nodup_iff.mp h.nodup)
  have hin : e ∈ q.events s.queue := hperm.mem_iff.mpr (by simp)
  rw [Timers.dispatch]
  dsimp only
  by_cases hb : (s.event e).time_ < s.clock_
  · rw [if_pos hb]
    exact ⟨nofun, nofun, nofun⟩
  rw [if_neg hb]
  have hq : Queued q { s with
      queue := queue
      clock_ := (s.event e).time_
      event := Function.update s.event e ⟨(s.event e).time_, -(s.event e).uid_⟩ } := by
    refine ⟨hnd, fun x => ?_, h.uid⟩
    show x ∈ q.events queue ↔
      0 < (Function.update s.event e ⟨(s.event e).time_, -(s.event e).uid_⟩ x).uid_
    by_cases hx : x = e
    · have := (h.uid_iff e).mp hin
      simp only [hx, hnot, Function.update_self, false_iff]
      omega
    · rw [Function.update_of_ne hx, ← h.uid_iff x, hperm.mem_iff]
      simp [hx]
  have hmem : ∀ x, x ≠ e → (x ∈ q.events queue ↔ x ∈ q.events s.queue) := fun x hx => by
    rw [hperm.mem_iff]
    simp [hx]
  cases e with
  | inl i =>
    dsimp only
    rw [handle, if_neg (not_not.mpr ((h.status i).mpr hin))]
    have hi := @Queued.setStatus _ _ _ _ _ _ _ _ q s _ h hq rfl i TIMER_HANDLING (by simp [hnot])
      fun j hj => hmem _ (by simp [hj])
    exact ⟨⟨hi.nodup, hi.uid_iff, hi.uid⟩, hi.status⟩
  | inr k => exact ⟨hq, fun j => (h.status j).trans (hmem _ (by simp)).symm⟩

theorem Inv.expired {s : Timers ι κ τ σ} (h : Inv q s) : Inv q s.expired := by
  rw [Timers.expired]
  cases s.expiring with
  | nil => exact h
  | cons i rest =>
    dsimp only
    by_cases hs : s.status_ i = TIMER_HANDLING
    · rw [if_pos hs]
      have hout : .inl i ∉ q.events s.queue := fun hin => by
        rw [(h.status i).mpr hin] at hs
        cases hs
      have hi : TIMER_IDLE = TIMER_PENDING ↔ .inl i ∈ q.events s.queue := by simp [hout]
      have hset := Queued.setStatus h h.toQueued rfl i hi fun _ _ => .rfl
      exact ⟨⟨hset.nodup, hset.uid_iff, hset.uid⟩, hset.status⟩
    · rw [if_neg hs]
      exact ⟨⟨h.nodup, h.uid_iff, h.uid⟩, h.status⟩

/-- The operations of the timers and of the scheduler. -/
def Op.OfTimers : Op ι κ τ → Prop
  | .scheduleOther _ _ => False
  | .cancelOther _ => False
  | _ => True

theorem Inv.step {s : Timers ι κ τ σ} (h : Inv q s) {op : Op ι κ τ} (hop : op.OfTimers) :
    Good q (Timers.step q s op) := by
  cases op with
  | sched i delay =>
    rw [Timers.step, Timers.sched]
    by_cases hs : s.status_ i ≠ TIMER_IDLE
    · rw [if_pos hs]
      exact ⟨nofun, nofun, nofun⟩
    · rw [if_neg hs]
      apply h.scheduled h.toQueued rfl
      · rw [← h.status, not_not.mp hs]
        exact nofun
      · exact fun _ _ => .rfl
  | resched i delay =>
    rw [Timers.step, Timers.resched]
    by_cases hs : s.status_ i = TIMER_PENDING
    · obtain ⟨s', h1, h2, h3, h4⟩ := h.unschedule (.inl i)
      rw [if_pos hs, h1]
      apply h.scheduled h2 h3
      · simp [h4]
      · intro j hj
        rw [h4]
        simp [hj]
    · rw [if_neg hs]
      apply h.scheduled h.toQueued rfl
      · rwa [← h.status]
      · exact fun _ _ => .rfl
  | cancel i =>
    rw [Timers.step, Timers.cancel]
    by_cases hs : s.status_ i ≠ TIMER_PENDING
    · rw [if_pos hs]
      exact ⟨nofun, nofun, nofun⟩
    · rw [if_neg hs]
      exact h.unscheduled i nofun
  | forceCancel i =>
    rw [Timers.step, Timers.forceCancel]
    by_cases hs : s.status_ i = TIMER_PENDING
    · rw [if_pos hs]
      exact h.unscheduled i nofun
    · rw [if_neg hs]
      exact h
  | dispatch =>
    rw [Timers.step, Timers.runOnce]
    cases hd : q.deque s.queue with
    | none => exact h
    | some r => exact h.dispatch hd
  | expired => exact h.expired
  | scheduleOther k delay => cases hop
  | cancelOther k => cases hop

theorem Inv.other {s s' : Timers ι κ τ σ} (h : Inv q s) {op : Op ι κ τ} (hop : ¬ op.OfTimers)
    (hs : Timers.step q s op = .ok s') : Inv q s' := by
  have hmain : ∀ t, Queued q t → t.status_ = s.status_ →
      (∀ j, .inl j ∈ q.events t.queue ↔ .inl j ∈ q.events s.queue) → Inv q t :=
    fun t ht hkeep hmem => ⟨ht, fun j => by rw [hkeep, hmem]; exact h.status j⟩
  cases op with
  | scheduleOther k delay =>
    change Timers.schedule q s (.inr k) delay = .ok s' at hs
    rcases h.schedule (.inr k) delay with ⟨h1, -⟩ | h1 | ⟨t, h1, h2, h3, h4⟩
    · rw [h1] at hs
      cases hs
    · rw [h1] at hs
      cases hs
    · rw [h1] at hs
      cases hs
      exact hmain s' h2 h3 fun j => by simp [h4]
  | cancelOther k =>
    obtain ⟨t, h1, h2, h3, h4⟩ := h.unschedule (.inr k)
    change Timers.unschedule q s (.inr k) = .ok s' at hs
    rw [h1] at hs
    cases hs
    exact hmain s' h2 h3 fun j => by simp [h4]
  | sched i delay => exact absurd trivial hop
  | resched i delay => exact absurd trivial hop
  | cancel i => exact absurd trivial hop
  | forceCancel i => exact absurd trivial hop
  | dispatch => exact absurd trivial hop
  | expired => exact absurd trivial hop

theorem Inv.run {s s' : Timers ι κ τ σ} (h : Inv q s) {ops : List (Op ι κ τ)}
    (hs : Timers.run q s ops = .ok s') : Inv q s' := by
  induction ops generalizing s with
  | nil =>
    cases hs
    exact h
  | cons op ops ih =>
    rw [Timers.run] at hs
    cases hstep : Timers.step q s op with
    | error a =>
      rw [hstep] at hs
      cases hs
    | ok t =>
      rw [hstep] at hs
      refine ih ?_ hs
      by_cases hop : op.OfTimers
      · have := h.step hop
        rwa [hstep] at this
      · exact h.other hop hstep

variable [Zero τ]

/-- In every state of every run a timer is pending exactly when its event is in the queue, where it
is once and with a positive uid. No call of a timer makes the scheduler abort for a uid that is
still valid or for an event that it does not have, and no timer expires that is not pending. -/
theorem pending_iff_queued (clock : τ) {empty : σ} (hempty : q.events empty = [])
    {ops : List (Op ι κ τ)} {s : Timers ι κ τ σ} (hrun : Timers.run q (start clock empty) ops = .ok s) :
    (∀ i, s.status_ i = TIMER_PENDING ↔ .inl i ∈ q.events s.queue) ∧
    (q.events s.queue).Nodup ∧
    (∀ i, .inl i ∈ q.events s.queue → 0 < (s.event (.inl i)).uid_) ∧
    ∀ op a, Op.OfTimers op → Timers.step q s op = .error a →
      a ≠ .uidNotValid ∧ a ≠ .unlinked ∧ a ≠ .notPending := by
  have hstart : Inv q (start clock empty : Timers ι κ τ σ) := by
    refine ⟨⟨?_, fun e => ?_, .inr (by simp [start])⟩, fun i => ?_⟩
    · simp [start, hempty]
    · simp [start, hempty]
    · simp [start, hempty]
  have h := hstart.run hrun
  refine ⟨h.status, h.nodup, fun i hi => (h.uid_iff _).mp hi, fun op a hop ha => ?_⟩
  have hgood := h.step hop
  rwa [ha] at hgood

theorem pending_iff_queued_resched :
    let q := @ListScheduler.pointers (Bool ⊕ ℕ) ℕ _ _
    ∃ s, Timers.run q (start 0 [])
        [.sched true 1, .sched false 2, .dispatch, .resched true 3, .expired] = .ok s ∧
      (∀ i, s.status_ i = TIMER_PENDING ↔ .inl i ∈ q.events s.queue) ∧ (q.events s.queue).Nodup ∧
      (∀ i, .inl i ∈ q.events s.queue → 0 < (s.event (.inl i)).uid_) ∧
      ∀ op a, Op.OfTimers op → Timers.step q s op = .error a →
        a ≠ .uidNotValid ∧ a ≠ .unlinked ∧ a ≠ .notPending := by
  intro q
  obtain ⟨s, hs⟩ : ∃ s, Timers.run q (start 0 [])
      [.sched true 1, .sched false 2, .dispatch, .resched true 3, .expired] = .ok s := ⟨_, rfl⟩
  exact ⟨s, hs, pending_iff_queued 0 rfl hs⟩

end Timers

end Ns2
