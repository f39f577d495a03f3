import Ns2.Queue.DropTail

/-! A queue and the link behind it, as the scheduler drives them: the queue hands the link one
packet at a time and goes on when the link's interrupt event `intr_` returns to it. -/

namespace Ns2

/-- What an event does when it is dispatched. The event object of an arrival is the packet. -/
inductive LinkTask
  | resume
  | arrival (p : LinkPacket)
  deriving DecidableEq

/-- The packet that is the event object. -/
def LinkTask.packet : LinkTask → Option LinkPacket
  | .resume => none
  | .arrival p => some p

structure LinkEvent where
  time_ : ℚ
  task : LinkTask
  deriving DecidableEq

structure LinkDelay (σ : Type*) where
  pq : σ
  blocked_ : Bool
  unblock_on_resume_ : Bool
  bandwidth_ : ℚ
  delay_ : ℚ
  dynamic_ : Bool
  avoidReordering_ : Bool
  latest_time_ : ℚ
  /-- packets in transit, with their own `time_` -/
  itq_ : List LinkEvent
  clock_ : ℚ
  /-- the scheduler's events, as they were inserted -/
  events : List LinkEvent

inductive LinkInput
  /-- A packet comes to the queue. -/
  | recv (p : LinkPacket) (now : ℚ)
  /-- The scheduler dispatches its next event. -/
  | dispatch
  | setBandwidth (b : ℚ)
  | setDelay (d : ℚ)
  | reset
  deriving DecidableEq

inductive LinkOutput
  /-- The queue hands the packet to the link. -/
  | sent (p : LinkPacket) (now : ℚ)
  | delivered (p : LinkPacket) (now : ℚ)
  /-- The queue drops the packet. -/
  | dropped (p : LinkPacket)
  /-- The link is reset while the packet is in transit. -/
  | lost (p : LinkPacket)
  deriving DecidableEq

namespace LinkDelay

variable {σ : Type*}

def txtime (l : LinkDelay σ) (p : LinkPacket) : ℚ := 8 * p.size / l.bandwidth_

/-- An event object that waits already must not be scheduled: the scheduler aborts. -/
def schedule (l : LinkDelay σ) (task : LinkTask) (delay : ℚ) : Option (LinkDelay σ) :=
  if task ∈ l.events.map LinkEvent.task then none
  else some { l with events := l.events ++ [⟨l.clock_ + delay, task⟩] }

/-- The first branches of `LinkDelay::recv`. -/
def propagate (l : LinkDelay σ) (p : LinkPacket) : Option (LinkDelay σ) :=
  let txt := l.txtime p
  if l.dynamic_ then
    schedule { l with itq_ := l.itq_ ++ [⟨l.clock_ + (txt + l.delay_), .arrival p⟩] } (.arrival p)
      (txt + l.delay_)
  else if l.avoidReordering_ then
    if txt + l.delay_ < l.latest_time_ - l.clock_ ∧ l.latest_time_ > 0 then
      schedule { l with latest_time_ := l.latest_time_ + txt } (.arrival p)
        (l.latest_time_ + txt - l.clock_)
    else
      schedule { l with latest_time_ := l.clock_ + txt + l.delay_ } (.arrival p) (txt + l.delay_)
  else l.schedule (.arrival p) (txt + l.delay_)

/-- `LinkDelay::recv`, called as `target_->recv(p, &qh_)` -/
def send (l : LinkDelay σ) (p : LinkPacket) : Option (LinkDelay σ) :=
  (l.propagate p).bind fun l' => l'.schedule .resume (l.txtime p)

def start (l : LinkDelay σ) (p : LinkPacket) : Option (LinkDelay σ × List LinkOutput) :=
  (l.send p).map fun l' => (l', [.sent p l.clock_])

variable (q : Discipline σ)

/-- `Queue::recv` -/
def recv (l : LinkDelay σ) (p : LinkPacket) : Option (LinkDelay σ × List LinkOutput) :=
  let drops := (q.enque p l.pq).2.map LinkOutput.dropped
  let l := { l with pq := (q.enque p l.pq).1 }
  if l.blocked_ then some (l, drops)
  else
    match q.deque l.pq with
    | none => some (l, drops)
    | some (p, pq) =>
      (start { l with pq, blocked_ := true } p).map fun r => (r.1, drops ++ r.2)

/-- `Queue::resume` -/
def resume (l : LinkDelay σ) : Option (LinkDelay σ × List LinkOutput) :=
  match q.deque l.pq with
  | none => some ({ l with blocked_ := !l.unblock_on_resume_ }, [])
  | some (p, pq) => start { l with pq } p

/-- `LinkDelay::handle` of a dynamic link, with its assertion. -/
def handle (l : LinkDelay σ) (e : LinkEvent) : Option (LinkDelay σ × List LinkOutput) :=
  match l.itq_ with
  | [] => none
  | ⟨time_, task⟩ :: itq_ =>
    if time_ = e.time_ then
      match task with
      | .arrival p => some ({ l with itq_ }, [.delivered p l.clock_])
      | .resume => none
    else none

/-- The first of the earliest events. -/
def next (events : List LinkEvent) : Option LinkEvent :=
  events.find? fun e => events.all fun e' => e.time_ ≤ e'.time_

/-- `Scheduler::dispatch` of the next event, if there is one. -/
def dispatch (l : LinkDelay σ) : Option (LinkDelay σ × List LinkOutput) :=
  match next l.events with
  | none => some (l, [])
  | some e =>
    let l := { l with clock_ := e.time_, events := l.events.erase e }
    match e.task with
    | .resume => resume q l
    | .arrival p => if l.dynamic_ then l.handle e else some (l, [.delivered p l.clock_])

/-- `LinkDelay::reset`: the packets in transit are cancelled and dropped. -/
def reset (l : LinkDelay σ) : LinkDelay σ × List LinkOutput :=
  if l.dynamic_ then
    ({ l with itq_ := [], events := l.events.filter (· ∉ l.itq_) },
      l.itq_.filterMap fun e => e.task.packet.map .lost)
  else (l, [])

def step (l : LinkDelay σ) : LinkInput → Option (LinkDelay σ × List LinkOutput)
  | .recv p now => recv q { l with clock_ := now } p
  | .dispatch => dispatch q l
  | .setBandwidth b => some ({ l with bandwidth_ := b }, [])
  | .setDelay d => some ({ l with delay_ := d }, [])
  | .reset => some l.reset

end LinkDelay

end Ns2
