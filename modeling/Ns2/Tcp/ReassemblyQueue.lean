import Ns2.Lib.DList
import Ns2.Lib.Machine

/-! The reassembly queue of a receiver: blocks of sequence numbers, linked in the order of the
numbers and, last in first out, in the order of their insertion. -/

namespace Ns2

/-- The links `next_` and `prev_` with `head_` and `tail_` are `fifo`, and `snext_` and `sprev_`
with `top_` and `bottom_` are `lifo`. The nodes that are allocated are `live`, and all of them are
below `brk`. -/
structure ReassemblyQueue where
  fifo : DList ℕ
  lifo : DList ℕ
  startseq_ : ℕ → ℤ
  endseq_ : ℕ → ℤ
  pflags_ : ℕ → ℕ
  rqflags_ : ℕ → ℕ
  cnt_ : ℕ → ℤ
  hint_ : Option ℕ
  total_ : ℤ
  rcv_nxt_ : ℤ
  live : ℕ → Bool
  freelist_ : List ℕ
  brk : ℕ

namespace ReassemblyQueue

def new (rcvnxt : ℤ) : ReassemblyQueue where
  fifo := .empty
  lifo := .empty
  startseq_ _ := 0
  endseq_ _ := 0
  pflags_ _ := 0
  rqflags_ _ := 0
  cnt_ _ := 0
  hint_ := none
  total_ := 0
  rcv_nxt_ := rcvnxt
  live _ := false
  freelist_ := []
  brk := 0

/-- A pointer that is followed; `none` if it is null or its node is freed. -/
def deref (s : ReassemblyQueue) (p : Option ℕ) : Option ℕ := p.filter fun a => s.live a

def newseginfo (s : ReassemblyQueue) : ReassemblyQueue × ℕ :=
  match s.freelist_ with
  | n :: rest => ({ s with freelist_ := rest, live := Function.update s.live n true }, n)
  | [] => ({ s with brk := s.brk + 1, live := Function.update s.live s.brk true }, s.brk)

def deleteseginfo (s : ReassemblyQueue) (p : ℕ) : ReassemblyQueue :=
  { s with freelist_ := p :: s.freelist_, live := Function.update s.live p false }

def fremove (s : ReassemblyQueue) (p : ℕ) : Option ReassemblyQueue :=
  (s.fifo.unlink s.live p).map fun fifo =>
    { s with hint_ := if s.hint_ = some p then none else s.hint_, fifo := fifo }

def sremove (s : ReassemblyQueue) (p : ℕ) : Option ReassemblyQueue :=
  (s.lifo.unlink s.live p).map fun lifo =>
    { s with hint_ := if s.hint_ = some p then none else s.hint_, lifo := lifo }

def push (s : ReassemblyQueue) (p : ℕ) : Option ReassemblyQueue :=
  (s.lifo.insert s.live none s.lifo.head p).map fun lifo => { s with lifo := lifo }

/-- `rcv_nxt_` moves to the end of a block that it has reached. -/
def advance (s : ReassemblyQueue) (start end_ : ℤ) : ReassemblyQueue :=
  { s with rcv_nxt_ := if s.rcv_nxt_ ≥ start then end_ else s.rcv_nxt_ }

/-! ### Coalescing -/

/-- `p && p->endseq_ == n->startseq_` -/
def joins (s : ReassemblyQueue) (p : Option ℕ) (n : ℕ) : Bool :=
  p.any fun a => s.endseq_ a = s.startseq_ n

/-- `q && n->endseq_ == q->startseq_` -/
def joined (s : ReassemblyQueue) (n : ℕ) (q : Option ℕ) : Bool :=
  q.any fun b => s.endseq_ n = s.startseq_ b

/-- A block is taken off the stack and off the queue. -/
def unlink (s : ReassemblyQueue) (n : ℕ) : Option ReassemblyQueue :=
  (s.sremove n).bind (·.fremove n)

/-- The blocks in and around the new block `n`, which was just linked with `p` and `q`. -/
def coalesce (s : ReassemblyQueue) (p : Option ℕ) (n : ℕ) (q : Option ℕ) :
    Option (ReassemblyQueue × ℕ) :=
  match p, q, s.joins p n, s.joined n q with
  | some a, some b, true, true =>
    ((s.unlink n).bind (·.unlink b)).map fun s =>
      let flags := s.pflags_ a ||| s.pflags_ n
      let s := { s with
        endseq_ := Function.update s.endseq_ a (s.endseq_ b)
        cnt_ := Function.update s.cnt_ a (s.cnt_ a + (s.cnt_ n + s.cnt_ b))
        pflags_ := Function.update s.pflags_ a flags }
      let s := (s.deleteseginfo n).deleteseginfo b
      (s.advance (s.startseq_ a) (s.endseq_ a), flags)
  | some a, _, true, _ =>
    (s.unlink n).map fun s =>
      let flags := s.pflags_ a ||| s.pflags_ n
      let s := { s with
        endseq_ := Function.update s.endseq_ a (s.endseq_ n)
        cnt_ := Function.update s.cnt_ a (s.cnt_ a + s.cnt_ n)
        pflags_ := Function.update s.pflags_ a flags }
      let s := s.deleteseginfo n
      (s.advance (s.startseq_ a) (s.endseq_ a), flags)
  | _, some b, _, true =>
    (s.unlink n).map fun s =>
      let flags := s.pflags_ b ||| s.pflags_ n
      let s := { s with
        startseq_ := Function.update s.startseq_ b (s.startseq_ n)
        cnt_ := Function.update s.cnt_ b (s.cnt_ b + s.cnt_ n)
        pflags_ := Function.update s.pflags_ b flags }
      let s := s.deleteseginfo n
      (s.advance (s.startseq_ b) (s.endseq_ b), flags)
  | _, _, _, _ => (s.deref p).map fun a => (s.advance (s.startseq_ a) (s.endseq_ a), 0)

/-! ### Adding a segment -/

/-- The new block is put between `p` and `q`. -/
def endfast (s : ReassemblyQueue) (p q : Option ℕ) (start end_ : ℤ) (tiflags rqflags : ℕ)
    (initcnt : ℤ) (needmerge : Bool) : Option (ReassemblyQueue × ℕ) :=
  let r := s.newseginfo
  let n := r.2
  let s := { r.1 with
    startseq_ := Function.update s.startseq_ n start
    endseq_ := Function.update s.endseq_ n end_
    pflags_ := Function.update s.pflags_ n tiflags
    rqflags_ := Function.update s.rqflags_ n rqflags
    cnt_ := Function.update s.cnt_ n initcnt }
  (s.push n).bind fun s => (s.fifo.insert s.live p q n).bind fun fifo =>
    let s := { s with fifo := fifo, total_ := s.total_ + (end_ - start) }
    if needmerge then s.coalesce p n q else some (s.advance start end_, tiflags)

/-- The end of the loop that kills what is overlapped: the exact overlap, or what is left with the
flags and the count of the killed blocks, and whether there was one. -/
inductive Killed where
  | exact (s : ReassemblyQueue) (flags : ℕ)
  | rest (s : ReassemblyQueue) (tiflags : ℕ) (initcnt : ℤ) (altered : Bool)

/-- The loop that kills anything that is completely overlapped, up to `q`. -/
def kill (start end_ : ℤ) (q : Option ℕ) :
    ℕ → Option ℕ → ReassemblyQueue → ℕ → ℤ → Bool → Option Killed
  | 0, _, _, _, _, _ => none
  | _ + 1, none, s, tiflags, initcnt, altered => some (.rest s tiflags initcnt altered)
  | fuel + 1, some r, s, tiflags, initcnt, altered =>
    if q = some r then some (.rest s tiflags initcnt altered)
    else if s.live r = false then none
    else if start = s.startseq_ r ∧ end_ = s.endseq_ r then
      let flags := s.pflags_ r ||| tiflags
      some (.exact { s with pflags_ := Function.update s.pflags_ r flags } flags)
    else if start ≤ s.startseq_ r ∧ end_ ≥ s.endseq_ r then
      let s' := { s with total_ := s.total_ - (s.endseq_ r - s.startseq_ r) }
      ((s'.fremove r).bind (·.sremove r)).bind fun s' =>
        kill start end_ q fuel (s.fifo.next r) (s'.deleteseginfo r) (tiflags ||| s.pflags_ r)
          (initcnt + s.cnt_ r) true
    else kill start end_ q fuel (s.fifo.next r) s tiflags initcnt altered

/-- The block that the new segment merges with on its left side. -/
def leftBlock (s : ReassemblyQueue) (p : Option ℕ) (start : ℤ) : Option (Option ℕ) :=
  match p with
  | none => (s.deref s.fifo.head).map some
  | some a => ((s.deref (some a)).bind fun a => s.deref (s.fifo.next a)).map fun b =>
    if s.startseq_ b < start then some b else none

def mergeLeft (s : ReassemblyQueue) (b : ℕ) (start : ℤ) (tiflags : ℕ) : ReassemblyQueue :=
  { s with
    total_ := if start < s.startseq_ b then s.total_ + (s.startseq_ b - start) else s.total_
    startseq_ := if start < s.startseq_ b then Function.update s.startseq_ b start else s.startseq_
    pflags_ := Function.update s.pflags_ b (s.pflags_ b ||| tiflags)
    cnt_ := Function.update s.cnt_ b (s.cnt_ b + 1) }

/-- The block that the new segment merges with on its right side. -/
def rightBlock (s : ReassemblyQueue) (q : Option ℕ) (end_ : ℤ) : Option (Option ℕ) :=
  match q with
  | none => (s.deref s.fifo.tail).map some
  | some b => ((s.deref (some b)).bind fun b => s.deref (s.fifo.prev b)).map fun a =>
    if s.endseq_ a > end_ then some a else none

/-- The source's count of the block stays: it tests `needmerge`, which is set before. -/
def mergeRight (s : ReassemblyQueue) (b : ℕ) (end_ : ℤ) (tiflags : ℕ) : ReassemblyQueue :=
  { s with
    total_ := if end_ > s.endseq_ b then s.total_ + (end_ - s.endseq_ b) else s.total_
    endseq_ := if end_ > s.endseq_ b then Function.update s.endseq_ b end_ else s.endseq_
    pflags_ := Function.update s.pflags_ b (s.pflags_ b ||| tiflags) }

/-- Whether the new segment, between the adjacent blocks `p` and `q`, touches one of them. -/
def touches (s : ReassemblyQueue) (p q : Option ℕ) (start end_ : ℤ) : Option Bool :=
  (s.deref p).bind fun a =>
    if s.fifo.next a = q ∧ s.endseq_ a ≤ start then
      (s.deref q).map fun b =>
        s.startseq_ b ≥ end_ ∧ (s.endseq_ a = start ∨ s.startseq_ b = end_)
    else some false

/-- The right side of a merge, when the left side is done. -/
def merge' (s : ReassemblyQueue) (p q : Option ℕ) (start end_ : ℤ) (tiflags rqflags : ℕ)
    (initcnt : ℤ) (needmerge : Bool) : Option (ReassemblyQueue × ℕ) :=
  (s.rightBlock q end_).bind fun
    | some b =>
      let s := s.mergeRight b end_ tiflags
      let end_ := s.startseq_ b
      if end_ ≤ start then
        (s.deref s.fifo.head).map fun h => (s.advance (s.startseq_ h) (s.endseq_ h), tiflags)
      else s.endfast p (some b) start end_ tiflags rqflags initcnt true
    | none =>
      if end_ ≤ start then
        (s.deref s.fifo.head).map fun h => (s.advance (s.startseq_ h) (s.endseq_ h), tiflags)
      else
        (if needmerge then some true else s.touches p q start end_).bind fun needmerge =>
          s.endfast p q start end_ tiflags rqflags initcnt needmerge

def merge (s : ReassemblyQueue) (p q : Option ℕ) (start end_ : ℤ) (tiflags rqflags : ℕ)
    (initcnt : ℤ) : Option (ReassemblyQueue × ℕ) :=
  (s.leftBlock p start).bind fun
    | some b =>
      let s := s.mergeLeft b start tiflags
      s.merge' (some b) q (s.endseq_ b) end_ tiflags rqflags (initcnt - 1) true
    | none => s.merge' p q start end_ tiflags rqflags initcnt false

/-- The search for the place of a segment in a queue that is not empty, again after blocks were
killed. -/
def again2 (start end_ : ℤ) (rqflags : ℕ) :
    ℕ → ReassemblyQueue → ℕ → ℤ → Option (ReassemblyQueue × ℕ)
  | 0, _, _, _ => none
  | fuel + 1, s, tiflags, initcnt =>
    (s.deref s.fifo.tail).bind fun tail =>
    if start ≥ s.endseq_ tail then
      s.endfast (some tail) none start end_ tiflags rqflags initcnt (start = s.endseq_ tail)
    else
    (s.deref s.fifo.head).bind fun head =>
    if end_ ≤ s.startseq_ head then
      s.endfast none (some head) start end_ tiflags rqflags initcnt (end_ = s.startseq_ head)
    else
    (DList.scan s.live s.fifo.next (fun a => s.startseq_ a ≥ end_) (s.brk + 1) s.fifo.head).bind
      fun q =>
    (DList.scan s.live s.fifo.prev (fun a => s.endseq_ a ≤ start) (s.brk + 1) s.fifo.tail).bind
      fun p =>
    (kill start end_ q (s.brk + 1) (p <|> s.fifo.head) s tiflags initcnt false).bind fun
    | .exact s flags => some (s, flags)
    | .rest s tiflags initcnt altered =>
      if s.fifo.head = none then s.endfast p q start end_ tiflags rqflags initcnt false
      else if altered then again2 start end_ rqflags fuel s tiflags initcnt
      else s.merge p q start end_ tiflags rqflags initcnt

/-- `none` where the source aborts, follows a null pointer or one to a freed node, or does not
return. -/
def add (s : ReassemblyQueue) (start end_ : ℤ) (tiflags rqflags : ℕ) :
    Option (ReassemblyQueue × ℕ) :=
  if end_ < start then none
  else if s.fifo.head = none then
    if s.lifo.head ≠ none then none
    else { s with total_ := 0 }.endfast none none start end_ tiflags rqflags 1 false
  else again2 start end_ rqflags (s.brk + 2) s tiflags 1

/-! ### Clearing -/

/-- The loop of `clear`. -/
def clearLoop : ℕ → ReassemblyQueue → Option ReassemblyQueue
  | 0, _ => none
  | fuel + 1, s =>
    match s.fifo.head with
    | none => some s
    | some p =>
      if s.live p then
        clearLoop fuel ({ s with fifo := { s.fifo with head := s.fifo.next p } }.deleteseginfo p)
      else none

def clear (s : ReassemblyQueue) : Option ReassemblyQueue :=
  (clearLoop (s.brk + 1) { s with
    fifo := { s.fifo with tail := none }
    lifo := { s.lifo with head := none, tail := none }
    hint_ := none }).map fun s => { s with total_ := 0 }

/-- The loop of `clearto`, with the node at which it stops. -/
def clearToLoop (seq : ℤ) :
    ℕ → Option ℕ → ReassemblyQueue → ℕ → Option (ReassemblyQueue × ℕ × Option ℕ)
  | 0, _, _, _ => none
  | _ + 1, none, s, flag => some (s, flag, none)
  | fuel + 1, some p, s, flag =>
    if s.live p = false then none
    else if s.endseq_ p ≤ seq then
      let s' := { s with total_ := s.total_ - (s.endseq_ p - s.startseq_ p) }
      (s'.unlink p).bind fun s' =>
        clearToLoop seq fuel (s.fifo.next p) (s'.deleteseginfo p) (flag ||| s.pflags_ p)
    else some (s, flag, some p)

def clearto (s : ReassemblyQueue) (seq : ℤ) : Option (ReassemblyQueue × ℕ) :=
  (clearToLoop seq (s.brk + 1) s.fifo.head s 0).map fun
    | (s, flag, none) => (s, flag)
    | (s, flag, some p) =>
      if s.startseq_ p ≤ seq ∧ s.endseq_ p > seq then
        ({ s with
            total_ := s.total_ - (seq - s.startseq_ p)
            startseq_ := Function.update s.startseq_ p seq }, flag ||| s.pflags_ p)
      else (s, flag)

def cleartonxt (s : ReassemblyQueue) : Option (ReassemblyQueue × ℕ) := s.clearto s.rcv_nxt_

/-- The loop of `gensack`, from the node `p` of the stack on: the edges of the blocks. -/
def gensackLoop (s : ReassemblyQueue) : ℕ → Option ℕ → Option (List (ℤ × ℤ))
  | 0, _ => some []
  | _ + 1, none => some []
  | maxsblock + 1, some p =>
    if s.live p then
      (gensackLoop s maxsblock (s.lifo.next p)).map fun sacks =>
        (s.startseq_ p, s.endseq_ p) :: sacks
    else none

def gensack (s : ReassemblyQueue) (maxsblock : ℕ) : Option (List (ℤ × ℤ)) :=
  s.gensackLoop maxsblock s.lifo.head

/-- The operations; `rcv_nxt_` is a variable of the caller, who may write it too. -/
inductive Op where
  | add (start end_ : ℤ) (tiflags rqflags : ℕ)
  | clear
  | clearto (seq : ℤ)
  | cleartonxt
  | rcvnxt (seq : ℤ)

def step (s : ReassemblyQueue) : Op → Option (ReassemblyQueue × ℕ)
  | .add start end_ tiflags rqflags => s.add start end_ tiflags rqflags
  | .clear => s.clear.map fun s => (s, 0)
  | .clearto seq => s.clearto seq
  | .cleartonxt => s.cleartonxt
  | .rcvnxt seq => some ({ s with rcv_nxt_ := seq }, 0)

end ReassemblyQueue

end Ns2
