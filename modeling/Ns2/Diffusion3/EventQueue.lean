import Ns2.Lib.Machine

/-! The timer queue of diffusion: events in a linked list, kept in the order of the times at which
they are due. -/

namespace Ns2

structure Timeval where
  tv_sec : ℤ
  tv_usec : ℤ
  deriving DecidableEq

def timevalCmp (x y : Timeval) : ℤ :=
  if x.tv_sec > y.tv_sec then 1
  else if x.tv_sec < y.tv_sec then -1
  else if x.tv_usec > y.tv_usec then 1
  else if x.tv_usec < y.tv_usec then -1
  else 0

def timevalAddusecs (tv : Timeval) (usecs : ℤ) : Timeval :=
  let usec := tv.tv_usec + usecs
  if usec > 1000000 then ⟨tv.tv_sec + usec / 1000000, usec % 1000000⟩ else ⟨tv.tv_sec, usec⟩

/-- An event; `number` stands for its address. -/
structure QueueEvent where
  number : ℕ
  tv_ : Timeval
  handle_ : ℤ
  payload_ : ℕ
  deriving DecidableEq

structure DiffusionEventQueue where
  head_ : List QueueEvent
  created : ℕ

namespace DiffusionEventQueue

def new : DiffusionEventQueue := ⟨[], 0⟩

def eventCmp (x y : QueueEvent) : ℤ := timevalCmp x.tv_ y.tv_

/-- The events that the new one is put behind, and the others. -/
def eqAddLoop (e : QueueEvent) : List QueueEvent → List QueueEvent × List QueueEvent
  | [] => ([], [])
  | ptr :: rest =>
    if eventCmp e ptr > 0 then (ptr :: (eqAddLoop e rest).1, (eqAddLoop e rest).2)
    else ([], ptr :: rest)

def eqAdd (e : QueueEvent) (head : List QueueEvent) : List QueueEvent :=
  match eqAddLoop e head with
  | ([], _) => e :: head
  | (last, ptr) => last ++ e :: ptr

def eqPop (q : DiffusionEventQueue) : Option QueueEvent × DiffusionEventQueue :=
  (q.head_.head?, { q with head_ := q.head_.tail })

def eqFindEvent (hdl : ℤ) (head : List QueueEvent) : Option QueueEvent :=
  head.find? fun e => e.handle_ == hdl

/-- `delay_msec * 1000` is computed in 32 bits. -/
def setDelay (now : Timeval) (delay_msec : BitVec 32) : Timeval :=
  timevalAddusecs now (delay_msec * 1000#32).toInt

def eqAddAfter (now : Timeval) (hdl : ℤ) (payload : ℕ) (delay_msec : BitVec 32)
    (q : DiffusionEventQueue) : DiffusionEventQueue :=
  ⟨eqAdd ⟨q.created, setDelay now delay_msec, hdl, payload⟩ q.head_, q.created + 1⟩

/-- The loop of `eqRemoveEvent` from the event `pe` on. -/
def removeLoop (n : ℕ) (pe : QueueEvent) : List QueueEvent → Option (List QueueEvent)
  | [] => none
  | ce :: rest => if ce.number = n then some (pe :: rest) else (removeLoop n ce rest).map (pe :: ·)

/-- `none` stands for reading through the null head of an empty list. -/
def eqRemoveEvent (e : Option ℕ) (q : DiffusionEventQueue) : Option (Bool × DiffusionEventQueue) :=
  match e, q.head_ with
  | none, _ => some (false, q)
  | some _, [] => none
  | some n, pe :: rest =>
    if pe.number = n then some (true, { q with head_ := rest })
    else
      match removeLoop n pe rest with
      | none => some (false, q)
      | some head => some (true, { q with head_ := head })

def eqRemove (hdl : ℤ) (q : DiffusionEventQueue) : Option (Bool × DiffusionEventQueue) :=
  match eqFindEvent hdl q.head_ with
  | none => some (false, q)
  | some e => eqRemoveEvent (some e.number) q

end DiffusionEventQueue

inductive EventCall
  | eqAddAfter (now : Timeval) (hdl : ℤ) (payload : ℕ) (delay_msec : BitVec 32)
  | eqPop
  | eqRemove (hdl : ℤ)
  | eqRemoveEvent (e : Option ℕ)

inductive EventReply
  | added
  | popped (e : Option QueueEvent)
  | removed (found : Bool)
  deriving DecidableEq

def DiffusionEventQueue.call (q : DiffusionEventQueue) :
    EventCall → Option (DiffusionEventQueue × EventReply)
  | .eqAddAfter now hdl payload delay_msec => some (q.eqAddAfter now hdl payload delay_msec, .added)
  | .eqPop => some (q.eqPop.2, .popped q.eqPop.1)
  | .eqRemove hdl => (q.eqRemove hdl).map fun r => (r.2, .removed r.1)
  | .eqRemoveEvent e => (q.eqRemoveEvent e).map fun r => (r.2, .removed r.1)

end Ns2
