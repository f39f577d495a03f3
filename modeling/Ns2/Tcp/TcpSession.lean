import Ns2.Lib.Machine

/-! The choice of the connection that sends next (tcp-session.cc, nilist.cc). A connection is named
by its place in `conns_`, which only grows. -/

namespace Ns2

structure IntTcpAgent where
  wt_ : ℤ
  dynWt_ : ℤ
  curseq_ : ℤ
  t_seqno_ : ℤ
  deriving DecidableEq

def IntTcpAgent.data_left_to_send (a : IntTcpAgent) : Bool := decide (a.curseq_ > a.t_seqno_)

structure TcpSessionAgent where
  conns_ : List IntTcpAgent
  /-- The place that `connIter_` has reached; none at the end of the list. -/
  ce : Option ℕ
  wtSum_ : ℤ
  dynWtSum_ : ℤ
  nActive_ : ℕ
  curConn_ : Option ℕ
  numConsecSegs_ : ℤ
  deriving DecidableEq

namespace TcpSessionAgent

def MAX_PARALLEL_CONN : ℕ := 1000

def new : TcpSessionAgent := ⟨[], none, 0, 0, 0, none, 0⟩

def wt (s : TcpSessionAgent) (k : ℕ) : ℤ := s.conns_[k]?.elim 0 (·.wt_)

def dynWt (s : TcpSessionAgent) (k : ℕ) : ℤ := s.conns_[k]?.elim 0 (·.dynWt_)

def data_left_to_send (s : TcpSessionAgent) (k : ℕ) : Bool := s.conns_[k]?.any (·.data_left_to_send)

def reset_dyn_weights (s : TcpSessionAgent) : TcpSessionAgent :=
  { s with
    conns_ := s.conns_.map fun a => { a with dynWt_ := a.wt_ }
    dynWtSum_ := s.wtSum_ }

/-- The session adds the weight even when the host has refused the agent. -/
def add_agent (s : TcpSessionAgent) (a : IntTcpAgent) : TcpSessionAgent :=
  reset_dyn_weights
    (if s.nActive_ ≥ MAX_PARALLEL_CONN then { s with wtSum_ := s.wtSum_ + a.wt_ }
    else { s with
      nActive_ := s.nActive_ + 1
      conns_ := s.conns_ ++ [a]
      wtSum_ := s.wtSum_ + a.wt_ })

def set_weight (s : TcpSessionAgent) (k : ℕ) (wt : ℤ) : TcpSessionAgent :=
  { s with
    conns_ := s.conns_.modify k fun a => { a with wt_ := wt }
    wtSum_ := s.wtSum_ - s.wt k + wt }

/-- `set_weight` of an agent that is not in the list. -/
def set_weight_refused (s : TcpSessionAgent) (old wt : ℤ) : TcpSessionAgent :=
  { s with wtSum_ := s.wtSum_ - old + wt }

def resetwt (s : TcpSessionAgent) : TcpSessionAgent :=
  { s with
    conns_ := s.conns_.map fun a => { a with wt_ := 1 }
    wtSum_ := s.conns_.length }

def set_data (s : TcpSessionAgent) (k : ℕ) (curseq t_seqno : ℤ) : TcpSessionAgent :=
  { s with conns_ := s.conns_.modify k fun a => { a with curseq_ := curseq, t_seqno_ := t_seqno } }

def get_last (s : TcpSessionAgent) : Option ℕ :=
  if s.conns_.length = 0 then none else some (s.conns_.length - 1)

def set_cur (s : TcpSessionAgent) (cur : Option ℕ) : TcpSessionAgent := { s with ce := cur }

/-- `(*connIter_)()` -/
def iter (s : TcpSessionAgent) : Option ℕ × TcpSessionAgent :=
  match s.ce with
  | none => (none, s)
  | some k =>
    let ret := if k + 1 = s.conns_.length then 0 else k + 1
    (some ret, s.set_cur (if ret + 1 = s.conns_.length then none else some ret))

/-- The next connection, around the end of the list. -/
def next (s : TcpSessionAgent) : Option ℕ × TcpSessionAgent :=
  match s.iter with
  | (some k, s') => (some k, s')
  | (none, s') => (s'.set_cur s'.get_last).iter

/-- A unit of the dynamic weight, if the connection has one: `wtOK`. -/
def spend (s : TcpSessionAgent) (k : ℕ) : Bool × TcpSessionAgent :=
  if s.dynWt k > 0 then
    (true, { s with
      conns_ := s.conns_.modify k fun a => { a with dynWt_ := a.dynWt_ - 1 }
      dynWtSum_ := s.dynWtSum_ - 1 })
  else (false, s)

/-- `n` of the `count()` rounds of the search are left. The null connection has no
`data_left_to_send`. -/
def fineLoop : ℕ → TcpSessionAgent → Option (ℕ × TcpSessionAgent)
  | 0, _ => none
  | n + 1, s =>
    match s.next with
    | (none, _) => none
    | (some k, s₁) =>
      if (!s₁.data_left_to_send k || !(s₁.spend k).1) && 0 < n then fineLoop n (s₁.spend k).2
      else some (k, (s₁.spend k).2)

def renewed (s : TcpSessionAgent) : TcpSessionAgent :=
  if s.dynWtSum_ = 0 then s.reset_dyn_weights else s

/-- `who_to_snd(FINE_ROUND_ROBIN)` -/
def fine (s : TcpSessionAgent) : Option (Option ℕ × TcpSessionAgent) :=
  (fineLoop s.renewed.conns_.length s.renewed).map fun r =>
    (if r.2.data_left_to_send r.1 then some r.1 else none, r.2)

/-- Whether `curConn_` goes on sending; none is a division by zero. -/
def staysOn (s : TcpSessionAgent) (window : ℤ) : Option Bool :=
  match s.curConn_ with
  | none => some false
  | some k =>
    if s.wtSum_ = 0 then none
    else some (decide (s.numConsecSegs_ < (window * s.wt k).tdiv s.wtSum_) && s.data_left_to_send k)

/-- `who_to_snd(COARSE_ROUND_ROBIN)` -/
def coarse (s : TcpSessionAgent) (window : ℤ) : Option (Option ℕ × TcpSessionAgent) :=
  match s.staysOn window with
  | none => none
  | some true => some (s.curConn_, { s with numConsecSegs_ := s.numConsecSegs_ + 1 })
  | some false => s.fine.map fun r =>
    (r.1, { r.2 with
      curConn_ := r.1
      numConsecSegs_ := if r.1.isSome then 1 else 0 })

/-- One round of `who_to_snd(RANDOM)`, with its random number. -/
def random (s : TcpSessionAgent) (foo : ℕ) : Option ℕ × TcpSessionAgent :=
  ((fun s' : TcpSessionAgent => s'.iter.2)^[foo] (s.set_cur s.get_last)).iter

end TcpSessionAgent

/-- A session with what happened since its last reset: the weight that each connection was given
and how often it was chosen; and whether every search so far found data where there was some. -/
structure SessionTrace where
  agent : TcpSessionAgent
  given : ℕ → ℤ
  chosen : ℕ → ℕ
  served : Bool

inductive SessionOp where
  | add_agent (wt : ℕ) (dynWt curseq t_seqno : ℤ)
  | setwt (k wt : ℕ)
  | setwt_refused (old wt : ℕ)
  | resetwt
  | set_data (k : ℕ) (curseq t_seqno : ℤ)
  | fine
  | coarse (window : ℤ)
  | random (foo : ℕ)

namespace SessionTrace

open TcpSessionAgent

def new : SessionTrace := ⟨TcpSessionAgent.new, fun _ => 0, fun _ => 0, true⟩

/-- The record starts again with new dynamic weights. -/
def restart (t : SessionTrace) (s : TcpSessionAgent) : SessionTrace :=
  { t with
    agent := s
    given := s.wt
    chosen := fun _ => 0 }

def renewed (t : SessionTrace) : SessionTrace :=
  if t.agent.dynWtSum_ = 0 then t.restart t.agent.reset_dyn_weights else t

/-- The answer of a search is right: a connection with data, or none has any. -/
def serves (s : TcpSessionAgent) : Option ℕ → Bool
  | some k => s.data_left_to_send k
  | none => !s.conns_.any (·.data_left_to_send)

def count (c : ℕ → ℕ) : Option ℕ → ℕ → ℕ
  | some k => Function.update c k (c k + 1)
  | none => c

/-- A search that starts in `t` gives `r` and leaves `s`. -/
def searched (t : SessionTrace) (r : Option ℕ) (s : TcpSessionAgent) : SessionTrace :=
  ⟨s, t.renewed.given, count t.renewed.chosen r, t.served && serves t.agent r⟩

def step (t : SessionTrace) : SessionOp → Option (SessionTrace × Option ℕ)
  | .add_agent wt dynWt curseq t_seqno =>
    some (t.restart (t.agent.add_agent ⟨wt, dynWt, curseq, t_seqno⟩), none)
  | .setwt k wt => some ({ t with agent := t.agent.set_weight k wt }, none)
  | .setwt_refused old wt => some ({ t with agent := t.agent.set_weight_refused old wt }, none)
  | .resetwt => some ({ t with agent := t.agent.resetwt }, none)
  | .set_data k curseq t_seqno =>
    some ({ t with agent := t.agent.set_data k curseq t_seqno }, none)
  | .fine => t.agent.fine.map fun r => (t.searched r.1 r.2, r.1)
  | .coarse window =>
    (t.agent.coarse window).map fun r =>
      (if t.agent.staysOn window = some true then { t with agent := r.2 } else t.searched r.1 r.2,
        r.1)
  | .random foo => some ({ t with agent := (t.agent.random foo).2 }, (t.agent.random foo).1)

/-- Every search found data where there was some, and no connection was chosen more often than
its weight allows. -/
def Fair (t : SessionTrace) : Prop := t.served = true ∧ ∀ k, (t.chosen k : ℤ) ≤ t.given k

end SessionTrace

namespace TcpSessionAgent

/-- The connection that was looked at last. -/
def pos (s : TcpSessionAgent) : ℕ := s.ce.getD (s.conns_.length - 1)

/-- A connection that may be chosen within its weight. -/
def Good (s : TcpSessionAgent) (k : ℕ) : Prop := s.data_left_to_send k = true ∧ 0 < s.dynWt k

end TcpSessionAgent

/-- A search is safe: there is a connection; and one with data has some of its weight left, or none
has data, or the connection looked at last has data and was chosen less often than its weight. -/
def SessionTrace.Safe (t : SessionTrace) : Prop :=
  t.agent.conns_ ≠ [] ∧
    ((∃ k, t.renewed.agent.Good k) ∨ (∀ k, t.agent.data_left_to_send k = false) ∨
      (t.agent.data_left_to_send t.agent.pos = true ∧
        (t.renewed.chosen t.agent.pos : ℤ) < t.renewed.given t.agent.pos))

def SessionTrace.Ok (t : SessionTrace) : SessionOp → Prop
  | .fine => t.Safe
  | .coarse window =>
    t.agent.staysOn window ≠ none ∧ (t.agent.staysOn window = some false → t.Safe)
  | _ => True

end Ns2
