import Ns2.Lib.Framing
import Ns2.Lib.Machine

/-! Application data over a stream of bytes: the sender keeps the data of its messages in a queue,
from which the receiver takes them. -/

namespace Ns2

variable {α : Type*}

/-- `data_` is `none` for a null pointer. -/
structure CBuf (α : Type*) where
  data_ : Option α
  size_ : ℤ
  nbytes_ : ℤ
  deriving DecidableEq

/-- `CBuf::CBuf`; the constructor asks the data for its size. -/
def CBuf.new (size : α → ℤ) (c : Option α) (nbytes : ℤ) : Option (CBuf α) :=
  c.map fun c => ⟨if size c > 0 then some c else none, size c, nbytes⟩

structure TcpApp (α : Type*) where
  cbuf_ : List (CBuf α)
  curdata_ : Option (CBuf α)
  curbytes_ : ℤ
  deriving DecidableEq

inductive TcpAppEvent (α : Type*) where
  | send (nbytes : ℤ) (cbk : Option α)
  | recv (size : ℤ)
  deriving DecidableEq

namespace TcpApp

open Framing

def new : TcpApp α := ⟨[], none, 0⟩

/-- `CBufList::detach` -/
def rcvr_retrieve_data (dst : TcpApp α) : Option (CBuf α) × TcpApp α :=
  (dst.cbuf_.head?, { dst with cbuf_ := dst.cbuf_.tail })

/-- `TcpApp::send`; `none` is a null pointer. -/
def send (a : TcpApp α) (size : α → ℤ) (nbytes : ℤ) (cbk : Option α) : Option (TcpApp α) :=
  (CBuf.new size cbk nbytes).map fun p => { a with cbuf_ := a.cbuf_ ++ [p] }

/-- The size and the data of each message that is processed. -/
abbrev Processed (α : Type*) := List (ℤ × Option α)

/-- The messages that end in more bytes than the current one needs, what is left in the queue of the
sender, the message in progress and its bytes; `none` is the abort. -/
def processAll (curdata : CBuf α) (curbytes : ℤ) :
    List (CBuf α) → Option (Processed α × List (CBuf α) × Option (CBuf α) × ℤ)
  | next :: cbuf =>
    if curbytes ≥ curdata.nbytes_ then
      (processAll next (curbytes - curdata.nbytes_) cbuf).map fun r =>
        ((curdata.size_, curdata.data_) :: r.1, r.2)
    else some ([], next :: cbuf, some curdata, curbytes)
  | [] =>
    if curbytes ≥ curdata.nbytes_ then
      if curbytes - curdata.nbytes_ > 0 then none
      else some ([(curdata.size_, curdata.data_)], [], none, curbytes - curdata.nbytes_)
    else some ([], [], some curdata, curbytes)

/-- `TcpApp::recv`, with the peer `dst`; `none` is the abort. -/
def recv (a dst : TcpApp α) (size : ℤ) : Option (Processed α × TcpApp α × TcpApp α) :=
  let r := if a.curdata_ = none then dst.rcvr_retrieve_data else (a.curdata_, dst)
  match r.1 with
  | none => some ([], { a with curdata_ := none }, r.2)
  | some curdata =>
    let curbytes := a.curbytes_ + size
    if curbytes = curdata.nbytes_ then
      some ([(curdata.size_, curdata.data_)], { a with curdata_ := none, curbytes_ := 0 }, r.2)
    else if curbytes > curdata.nbytes_ then
      (processAll curdata curbytes r.2.cbuf_).map fun q =>
        (q.1, { a with curdata_ := q.2.2.1, curbytes_ := q.2.2.2 }, { r.2 with cbuf_ := q.2.1 })
    else some ([], { a with curdata_ := some curdata, curbytes_ := curbytes }, r.2)

end TcpApp

/-- Two applications that are connected to each other, for one direction. -/
structure TcpConnection (α : Type*) where
  src : TcpApp α
  dst : TcpApp α
  deriving DecidableEq

namespace TcpConnection

open Framing TcpApp

variable {size : α → ℤ} {c : TcpConnection α} {ms : List (CBuf α)} {n r b : ℤ} {m : CBuf α}
  {es : List (TcpAppEvent α)}

def new : TcpConnection α := ⟨.new, .new⟩

def step (size : α → ℤ) (c : TcpConnection α) :
    TcpAppEvent α → Option (TcpConnection α × Processed α)
  | .send nbytes cbk => (c.src.send size nbytes cbk).map fun a => ({ c with src := a }, [])
  | .recv n => (c.dst.recv c.src n).map fun r => (⟨r.2.2, r.2.1⟩, r.1)

def processed (ms : List (CBuf α)) : Processed α := ms.map fun m => (m.size_, m.data_)

/-- The messages that are sent. -/
def sent (size : α → ℤ) : List (TcpAppEvent α) → List (CBuf α)
  | [] => []
  | .send nbytes cbk :: es => (CBuf.new size cbk nbytes).toList ++ sent size es
  | .recv _ :: es => sent size es

/-- The bytes that arrive. -/
def received : List (TcpAppEvent α) → ℤ
  | [] => 0
  | .send _ _ :: es => received es
  | .recv n :: es => n + received es

/-- Messages have positive lengths, and no bytes arrive that are not sent; `k` are on the way. -/
def InOrder : ℤ → List (TcpAppEvent α) → Prop
  | _, [] => True
  | k, .send nbytes _ :: es => 0 < nbytes ∧ InOrder (k + nbytes) es
  | k, .recv n :: es => 0 ≤ n ∧ n ≤ k ∧ InOrder (k - n) es

/-- Each call processes the messages whose last bytes it brings, after the messages `ms` and the first
`r` bytes. -/
def deliveries (size : α → ℤ) : List (CBuf α) → ℤ → List (TcpAppEvent α) → List (Processed α)
  | _, _, [] => []
  | ms, r, .send nbytes cbk :: es =>
    [] :: deliveries size (ms ++ (CBuf.new size cbk nbytes).toList) r es
  | ms, r, .recv n :: es =>
    processed ((finished CBuf.nbytes_ (r + n) ms).drop (finished CBuf.nbytes_ r ms).length) ::
      deliveries size ms (r + n) es

/-- The receiver has the messages that are complete with the first `r` bytes behind it. -/
structure Follows (ms : List (CBuf α)) (r : ℤ) (c : TcpConnection α) : Prop where
  pos : ∀ m ∈ ms, 0 < m.nbytes_
  nonneg : 0 ≤ r
  le : r ≤ weight CBuf.nbytes_ ms
  rest : c.dst.curdata_.toList ++ c.src.cbuf_ = unfinished CBuf.nbytes_ r ms
  curbytes : c.dst.curbytes_ = inProgress CBuf.nbytes_ r ms

theorem follows_new : (new : TcpConnection α).Follows [] 0 :=
  ⟨List.forall_mem_nil _, le_rfl, le_rfl, rfl, rfl⟩

theorem Follows.send (h : c.Follows ms r) (hm : 0 < m.nbytes_) :
    Follows (ms ++ [m]) r { c with src := { c.src with cbuf_ := c.src.cbuf_ ++ [m] } } := by
  refine ⟨fun x hx => ?_, h.nonneg, ?_, ?_, ?_⟩
  · rcases List.mem_append.mp hx with hx | hx
    · exact h.pos x hx
    · exact (List.mem_singleton.mp hx) ▸ hm
  · have hle := h.le
    rw [weight_append, weight_cons, weight_nil]
    omega
  · rw [unfinished_concat hm h.le, ← h.rest, List.append_assoc]
  · rw [inProgress, finished_concat hm h.le]
    exact h.curbytes

theorem processAll_spec {q : List (CBuf α)} (hpos : ∀ x ∈ m :: q, 0 < x.nbytes_)
    (hle : b ≤ weight CBuf.nbytes_ (m :: q)) :
    ∃ q' m', processAll m b q = some (processed (finished CBuf.nbytes_ b (m :: q)), q', m',
        inProgress CBuf.nbytes_ b (m :: q)) ∧
      m'.toList ++ q' = unfinished CBuf.nbytes_ b (m :: q) := by
  induction q generalizing m b with
  | nil =>
    rw [processAll]
    by_cases h : b ≥ m.nbytes_
    · rw [weight_cons, weight_nil] at hle
      rw [if_pos h, inProgress_cons_of_le h, unfinished_cons_of_le h, finished_cons_of_le h,
        if_neg (by omega)]
      refine ⟨[], none, ?_, rfl⟩
      simp [processed, finished, inProgress]
    · have hlt := not_le.mp h
      rw [if_neg h, inProgress, unfinished, finished_cons_of_lt hlt]
      refine ⟨[], some m, ?_, rfl⟩
      simp [processed]
  | cons x q ih =>
    rw [processAll]
    by_cases h : b ≥ m.nbytes_
    · rw [weight_cons] at hle
      obtain ⟨q', m', hrun, hrest⟩ := ih (m := x) (b := b - m.nbytes_)
        (fun y hy => hpos y (List.mem_cons_of_mem m hy)) (by omega)
      rw [if_pos h, inProgress_cons_of_le h, unfinished_cons_of_le h, finished_cons_of_le h, hrun]
      exact ⟨q', m', rfl, hrest⟩
    · have hlt := not_le.mp h
      rw [if_neg h, inProgress, unfinished, finished_cons_of_lt hlt]
      refine ⟨x :: q, some m, ?_, rfl⟩
      simp [processed]

/-- What is completed by some more bytes. -/
theorem drop_finished (hn : 0 ≤ n) :
    (finished CBuf.nbytes_ (r + n) ms).drop (finished CBuf.nbytes_ r ms).length =
      finished CBuf.nbytes_ (inProgress CBuf.nbytes_ r ms + n) (unfinished CBuf.nbytes_ r ms) := by
  rw [finished_add hn, List.drop_left]

/-- The message in progress, which the first bytes of it take from the queue of the sender. -/
theorem retrieve_spec (a dst : TcpApp α) : ∃ cur q,
    (if a.curdata_ = none then dst.rcvr_retrieve_data else (a.curdata_, dst)) =
      (cur, { dst with cbuf_ := q }) ∧
    cur.toList ++ q = a.curdata_.toList ++ dst.cbuf_ ∧
    (cur = none → a.curdata_.toList ++ dst.cbuf_ = []) := by
  cases ha : a.curdata_ with
  | none =>
    refine ⟨_, _, if_pos rfl, ?_, fun hnone => ?_⟩
    · cases dst.cbuf_ <;> rfl
    · exact List.head?_eq_none_iff.mp hnone
  | some m => exact ⟨some m, dst.cbuf_, if_neg (Option.some_ne_none m), rfl, fun hnone => by cases hnone⟩

variable (size) in
theorem Follows.recv (h : c.Follows ms r) (hn : 0 ≤ n) (hle : r + n ≤ weight CBuf.nbytes_ ms) :
    ∃ c', c.step size (.recv n) = some (c', processed
        ((finished CBuf.nbytes_ (r + n) ms).drop (finished CBuf.nbytes_ r ms).length)) ∧
      c'.Follows ms (r + n) := by
  have hr : 0 ≤ r + n := add_nonneg h.nonneg hn
  have hweight := weight_unfinished (w := CBuf.nbytes_) (r := r) (l := ms)
  have hback := inProgress_nonneg (w := CBuf.nbytes_) (l := ms) h.nonneg
  have hpos : ∀ x ∈ unfinished CBuf.nbytes_ r ms, 0 < x.nbytes_ := fun x hx =>
    h.pos x (List.mem_of_mem_drop hx)
  have hlast := unfinished_add (w := CBuf.nbytes_) (r := r) (l := ms) hn
  have hbytes := inProgress_add (w := CBuf.nbytes_) (r := r) (l := ms) hn
  obtain ⟨cur, q, hget, hq, hempty⟩ := retrieve_spec c.dst c.src
  rw [h.rest] at hq hempty
  rw [drop_finished hn, step, TcpApp.recv, hget]
  dsimp only
  cases hcur : cur with
  | none =>
    -- all messages are complete, and no bytes are left
    have hnil := hempty hcur
    rw [hnil] at hweight hlast hbytes hq ⊢
    rw [weight_nil] at hweight
    have hqnil : q = [] := (List.append_eq_nil_iff.mp hq).2
    refine ⟨_, rfl, h.pos, hr, hle, ?_, ?_⟩
    · rw [hlast]
      exact hqnil
    · dsimp only
      have hzero : inProgress CBuf.nbytes_ r ms + n = inProgress CBuf.nbytes_ r ms := by omega
      rw [h.curbytes, hbytes, hzero, inProgress.eq_1 _ _ [], finished, weight_nil, sub_zero]
  | some m =>
    rw [hcur] at hq
    change m :: q = _ at hq
    rw [← hq] at hweight hlast hbytes hpos ⊢
    rw [h.curbytes]
    dsimp only
    by_cases heq : inProgress CBuf.nbytes_ r ms + n = m.nbytes_
    · have hzero : finished CBuf.nbytes_ 0 q = [] :=
        finished_zero fun x hx => hpos x (List.mem_cons_of_mem m hx)
      rw [heq, finished_cons_of_le le_rfl, sub_self, hzero]
      rw [heq, unfinished_cons_of_le le_rfl, sub_self, unfinished.eq_1 _ 0, hzero] at hlast
      rw [heq, inProgress_cons_of_le le_rfl, sub_self, inProgress.eq_1 _ 0, hzero] at hbytes
      rw [if_pos rfl]
      exact ⟨_, rfl, h.pos, hr, hle, hlast.symm, hbytes.symm⟩
    · by_cases hgt : inProgress CBuf.nbytes_ r ms + n > m.nbytes_
      · obtain ⟨q', m', hall, hrest⟩ := processAll_spec
          (b := inProgress CBuf.nbytes_ r ms + n) hpos (by omega)
        rw [if_neg heq, if_pos hgt, hall]
        exact ⟨_, rfl, h.pos, hr, hle, hrest.trans hlast.symm, hbytes.symm⟩
      · have hlt : inProgress CBuf.nbytes_ r ms + n < m.nbytes_ := by omega
        rw [if_neg heq, if_neg hgt, finished_cons_of_lt hlt]
        rw [unfinished_cons_of_lt hlt] at hlast
        rw [inProgress_cons_of_lt hlt] at hbytes
        exact ⟨_, rfl, h.pos, hr, hle, hlast.symm, hbytes.symm⟩

variable (size) in
theorem run_follows (hdata : ∀ n, .send n none ∉ es) (h : c.Follows ms r)
    (horder : InOrder (weight CBuf.nbytes_ ms - r) es) :
    ∃ t, Machine.run (step size) c es = some (t, deliveries size ms r es) ∧
      t.Follows (ms ++ sent size es) (r + received es) ∧
      processed (finished CBuf.nbytes_ r ms) ++ (deliveries size ms r es).flatten =
        processed (finished CBuf.nbytes_ (r + received es) (ms ++ sent size es)) := by
  induction es generalizing c ms r with
  | nil =>
    refine ⟨c, rfl, ?_⟩
    rw [sent, received, List.append_nil, add_zero]
    exact ⟨h, List.append_nil _⟩
  | cons e es ih =>
    have hrest : ∀ n, .send n none ∉ es := fun n hn => hdata n (List.mem_cons_of_mem e hn)
    cases e with
    | send nbytes cbk =>
      obtain ⟨hpos, horder⟩ := horder
      cases cbk with
      | none => exact absurd List.mem_cons_self (hdata nbytes)
      | some d =>
        obtain ⟨m, hm, hbytes⟩ : ∃ m, CBuf.new size (some d) nbytes = some m ∧ m.nbytes_ = nbytes :=
          ⟨_, rfl, rfl⟩
        have hstep : c.step size (.send nbytes (some d)) =
            some ({ c with src := { c.src with cbuf_ := c.src.cbuf_ ++ [m] } }, []) := by
          rw [step, TcpApp.send, hm]
          rfl
        obtain ⟨t, hrun, ht, hall⟩ := ih hrest (h.send (m := m) (by omega)) (by
          rw [weight_append, weight_cons, weight_nil, hbytes]
          convert horder using 1
          ring)
        rw [finished_concat (by omega) h.le, List.append_assoc] at hall
        rw [List.append_assoc] at ht
        refine ⟨t, ?_, ?_, ?_⟩
        · rw [Machine.run_cons_some hstep, hrun, deliveries, hm]
          rfl
        · rw [sent, received, hm]
          exact ht
        · rw [sent, received, deliveries, hm]
          exact hall
    | recv n =>
      obtain ⟨hn, hle, horder⟩ := horder
      obtain ⟨c', hstep, hc'⟩ := h.recv size hn (by omega)
      obtain ⟨t, hrun, ht, hall⟩ := ih hrest hc' (by
        convert horder using 1
        ring)
      have hsplit : processed (finished CBuf.nbytes_ (r + n) ms) =
          processed (finished CBuf.nbytes_ r ms) ++ processed
            ((finished CBuf.nbytes_ (r + n) ms).drop (finished CBuf.nbytes_ r ms).length) := by
        rw [drop_finished hn, processed, processed, processed, finished_add hn, List.map_append]
      refine ⟨t, ?_, ?_, ?_⟩
      · rw [Machine.run_cons_some hstep, hrun, deliveries]
        rfl
      · rw [sent, received, ← add_assoc]
        exact ht
      · rw [sent, received, ← add_assoc, ← hall, deliveries, List.flatten_cons, hsplit,
          List.append_assoc]

/-- A message without data stops the sender. -/
theorem run_send_none (h : .send n none ∈ es) : Machine.run (step size) c es = none := by
  induction es generalizing c with
  | nil => cases h
  | cons e es ih =>
    cases hstep : c.step size e with
    | none => exact Machine.run_cons_none hstep es
    | some p =>
      rcases List.mem_cons.mp h with rfl | h
      · cases hstep
      · rw [Machine.run_cons_some (o := p.2) (by exact hstep), ih h]
        rfl

/-- Every message is processed once, in the order of sending, by the call that brings its last byte,
if and only if all messages have data; the others stop the sender. -/
theorem run_delivers (size : α → ℤ) (es : List (TcpAppEvent α)) (horder : InOrder 0 es) :
    (∃ t os, Machine.run (step size) new es = some (t, os) ∧ os = deliveries size [] 0 es ∧
      os.flatten = processed (finished CBuf.nbytes_ (received es) (sent size es)) ∧
      t.dst.curbytes_ = inProgress CBuf.nbytes_ (received es) (sent size es)) ↔
    ∀ n, .send n none ∉ es := by
  constructor
  · rintro ⟨t, os, hrun, -⟩ n hn
    rw [run_send_none hn] at hrun
    cases hrun
  · intro hdata
    obtain ⟨t, hrun, ht, hall⟩ := run_follows size hdata follows_new horder
    rw [List.nil_append, zero_add] at ht hall
    exact ⟨t, _, hrun, rfl, hall, ht.curbytes⟩

theorem run_delivers_two : ∃ t os, Machine.run (step Nat.cast) new
    [.send 3 (some 7), .send 2 (some 8), .recv 4, .recv 1] = some (t, os) ∧
      os = [[], [], [(7, some 7)], [(8, some 8)]] ∧ t.dst.curbytes_ = 0 := by
  obtain ⟨t, os, hrun, hos, -, hbytes⟩ := (run_delivers Nat.cast
    [.send 3 (some 7), .send 2 (some 8), .recv 4, .recv 1] (by simp [InOrder])).mpr (by simp)
  exact ⟨t, os, hrun, hos, hbytes⟩

/-- A message of ten bytes without data. -/
theorem delivers_of_none : ¬ ∀ es : List (TcpAppEvent ℕ), InOrder 0 es →
    ∃ t os, Machine.run (step Nat.cast) new es = some (t, os) ∧
      os = deliveries Nat.cast [] 0 es ∧
      os.flatten = processed (finished CBuf.nbytes_ (received es) (sent Nat.cast es)) ∧
      t.dst.curbytes_ = inProgress CBuf.nbytes_ (received es) (sent Nat.cast es) := by
  intro hall
  obtain ⟨t, os, hrun, -⟩ := hall [.send 10 none] ⟨by decide, trivial⟩
  cases hrun

end TcpConnection
end Ns2
