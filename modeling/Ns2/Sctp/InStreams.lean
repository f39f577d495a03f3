import Ns2.Sctp.RecvTsnRuns

/-! The in-streams of sctp/sctp.cc. Ordered chunks wait in a list for each stream that is sorted
by a stream sequence number of 16 bits, and are passed up from its head. No NR-SACKs. -/

namespace Ns2

structure SctpDataChunkHdr where
  usLength : ℕ
  uiTsn : ℕ
  usStreamId : ℕ
  usStreamSeqNum : ℕ
  /-- `SCTP_DATA_FLAG_UNORDERED` -/
  unordered : Bool
  deriving DecidableEq

inductive SctpStreamMode
  | RELIABLE
  | UNRELIABLE
  deriving DecidableEq

structure SctpInStream where
  eMode : SctpStreamMode
  usNextStreamSeqNum : ℕ
  sBufferedChunkList : List SctpDataChunkHdr

/-- `passed` lists the chunks that `PassToUpperLayer` was called with. -/
structure SctpReceiver where
  tsns : RecvTsns
  uiMyRwnd : ℕ
  iNumInStreams : ℕ
  spInStreams : ℕ → SctpInStream
  passed : List SctpDataChunkHdr

namespace SctpReceiver

def PassToUpperLayer (c : SctpDataChunkHdr) (r : SctpReceiver) : SctpReceiver :=
  { r with
    uiMyRwnd := r.uiMyRwnd + c.usLength
    passed := r.passed ++ [c] }

def InsertInStreamBuffer (c : SctpDataChunkHdr) : List SctpDataChunkHdr → List SctpDataChunkHdr
  | [] => [c]
  | b :: bs =>
    if c.usStreamSeqNum ≤ b.usStreamSeqNum then
      if b.usStreamSeqNum ≠ c.usStreamSeqNum then c :: b :: bs else b :: bs
    else b :: InsertInStreamBuffer c bs

def setStream (i : ℕ) (s : SctpInStream) (r : SctpReceiver) : SctpReceiver :=
  { r with spInStreams := Function.update r.spInStreams i s }

def PassToStream (c : SctpDataChunkHdr) (r : SctpReceiver) : SctpReceiver :=
  if c.unordered then r.PassToUpperLayer c
  else
    let s := r.spInStreams c.usStreamId
    r.setStream c.usStreamId
      { s with sBufferedChunkList := InsertInStreamBuffer c s.sBufferedChunkList }

/-- The head of the list of stream `i` is passed up; `bs` is what follows it. -/
def release (i usNext : ℕ) (b : SctpDataChunkHdr) (bs : List SctpDataChunkHdr)
    (r : SctpReceiver) : SctpReceiver :=
  (r.setStream i ⟨(r.spInStreams i).eMode, usNext % 2 ^ 16, bs⟩).PassToUpperLayer b

def releaseLoop (i : ℕ) : List SctpDataChunkHdr → SctpReceiver → SctpReceiver
  | [], r => r
  | b :: bs, r =>
    let s := r.spInStreams i
    if s.eMode = .UNRELIABLE ∧ b.uiTsn ≤ r.tsns.uiCumAck then
      releaseLoop i bs (r.release i (b.usStreamSeqNum + 1) b bs)
    else if b.usStreamSeqNum = s.usNextStreamSeqNum then
      releaseLoop i bs (r.release i (s.usNextStreamSeqNum + 1) b bs)
    else r

def UpdateStream (r : SctpReceiver) (i : ℕ) : SctpReceiver :=
  releaseLoop i (r.spInStreams i).sBufferedChunkList r

def UpdateAllStreams (r : SctpReceiver) : SctpReceiver :=
  (List.range r.iNumInStreams).foldl UpdateStream r

def ProcessDataChunk (c : SctpDataChunkHdr) (r : SctpReceiver) : SctpReceiver :=
  if c.usLength ≤ r.uiMyRwnd then
    let u := r.tsns.receive c.uiTsn
    if u.2 then
      let r' := { r with
        uiMyRwnd := r.uiMyRwnd - c.usLength
        tsns := u.1 }
      (r'.PassToStream c).UpdateAllStreams
    else { r with tsns := u.1 }
  else r

def bytes (cs : List SctpDataChunkHdr) : ℕ := (cs.map SctpDataChunkHdr.usLength).sum

/-- The bytes that wait in the streams. -/
def buffered (r : SctpReceiver) : ℕ :=
  ∑ i ∈ Finset.range r.iNumInStreams, bytes (r.spInStreams i).sBufferedChunkList

/-- The streams of an association that has just been set up. -/
def start (N uiInitialRwnd : ℕ) : SctpReceiver :=
  ⟨.new, uiInitialRwnd, N, fun _ => ⟨.RELIABLE, 0, []⟩, []⟩

end SctpReceiver

/-- What a peer sends on `N` ordered streams: `message i k` is message `k` of stream `i`. -/
structure SentStreams (N : ℕ) where
  message : ℕ → ℕ → SctpDataChunkHdr
  seq : ∀ i k, (message i k).usStreamSeqNum = k % 2 ^ 16
  stream : ∀ i k, (message i k).usStreamId = i
  ordered : ∀ i k, (message i k).unordered = false
  tsn_pos : ∀ i k, 0 < (message i k).uiTsn
  tsn_inj : ∀ i < N, ∀ j < N, ∀ k l, (message i k).uiTsn = (message j l).uiTsn → i = j ∧ k = l

namespace SctpReceiver

variable {N window : ℕ} {m : SentStreams N} {r r' : SctpReceiver} {G : List (ℕ × ℕ)}
  {x : SctpReceiver × List (ℕ × ℕ)} {i j n k : ℕ} {ks : List ℕ}

/-- A message arrives; the receiver keeps company with the messages it had room for. -/
def step (m : SentStreams N) (x : SctpReceiver × List (ℕ × ℕ)) (a : ℕ × ℕ) :
    Option ((SctpReceiver × List (ℕ × ℕ)) × Unit) :=
  let c := m.message a.1 a.2
  some ((x.1.ProcessDataChunk c, if c.usLength ≤ x.1.uiMyRwnd then a :: x.2 else x.2), ())

/-- The chunks of stream `i` that were passed up. -/
def passedOn (i : ℕ) (r : SctpReceiver) : List SctpDataChunkHdr :=
  r.passed.filter (·.usStreamId = i)

/-- Each stream has passed up its messages up to the first missing one, once and in order, and the
window is short of the bytes that wait. -/
structure Right (m : SentStreams N) (window : ℕ) (x : SctpReceiver × List (ℕ × ℕ)) : Prop where
  in_order : ∀ i < N, ∃ n, x.1.passedOn i = (List.range n).map (m.message i) ∧
    (∀ k < n, (i, k) ∈ x.2) ∧ (i, n) ∉ x.2
  window : x.1.uiMyRwnd + x.1.buffered = window

/-- A message that is taken in is of the same run of sequence numbers from 0 to 65535 as the next
one to pass up. TSNs do not wrap. -/
def Near (m : SentStreams N) (x : SctpReceiver × List (ℕ × ℕ)) (a : ℕ × ℕ) : Prop :=
  let c := m.message a.1 a.2
  c.usLength ≤ x.1.uiMyRwnd → a ∉ x.2 →
    a.2 / 2 ^ 16 = (x.1.passedOn a.1).length / 2 ^ 16 ∧ c.uiTsn + 1 < 2 ^ 32

/-! ### One stream -/

/-- Stream `i` waits for message `n` and holds the messages `ks`. -/
structure Waits (m : SentStreams N) (i : ℕ) (r : SctpReceiver) (G : List (ℕ × ℕ)) (n : ℕ)
    (ks : List ℕ) : Prop where
  stream : r.spInStreams i = ⟨.RELIABLE, n % 2 ^ 16, ks.map (m.message i)⟩
  sorted : ks.Pairwise (· < ·)
  ahead : ∀ k ∈ ks, n ≤ k ∧ k / 2 ^ 16 = n / 2 ^ 16
  passed : r.passedOn i = (List.range n).map (m.message i)
  arrived : ∀ k, (i, k) ∈ G ↔ k < n ∨ k ∈ ks

/-- What the release of chunks of stream `i` leaves alone. -/
structure Released (i : ℕ) (r r' : SctpReceiver) : Prop where
  others : ∀ j, j ≠ i → r'.spInStreams j = r.spInStreams j ∧ r'.passedOn j = r.passedOn j
  tsns : r'.tsns = r.tsns
  count : r'.iNumInStreams = r.iNumInStreams
  window : i < r.iNumInStreams → r'.uiMyRwnd + r'.buffered = r.uiMyRwnd + r.buffered

theorem Released.refl (i : ℕ) (r : SctpReceiver) : Released i r r :=
  ⟨fun _ _ => ⟨rfl, rfl⟩, rfl, rfl, fun _ => rfl⟩

theorem Released.trans {r'' : SctpReceiver} (h : Released i r r') (h' : Released i r' r'') :
    Released i r r'' where
  others j hj := ⟨(h'.others j hj).1.trans (h.others j hj).1,
    (h'.others j hj).2.trans (h.others j hj).2⟩
  tsns := h'.tsns.trans h.tsns
  count := h'.count.trans h.count
  window hi := (h'.window (h.count ▸ hi)).trans (h.window hi)

theorem Waits.congr (h : Waits m j r G n ks) (hstream : r'.spInStreams j = r.spInStreams j)
    (hpassed : r'.passedOn j = r.passedOn j) : Waits m j r' G n ks where
  stream := hstream.trans h.stream
  sorted := h.sorted
  ahead := h.ahead
  passed := hpassed.trans h.passed
  arrived := h.arrived

theorem bytes_cons (c : SctpDataChunkHdr) (cs : List SctpDataChunkHdr) :
    bytes (c :: cs) = c.usLength + bytes cs := by
  simp [bytes]

theorem buffered_setStream (hi : i < r.iNumInStreams) (s : SctpInStream) :
    (r.setStream i s).buffered + bytes (r.spInStreams i).sBufferedChunkList =
      r.buffered + bytes s.sBufferedChunkList := by
  have hmem : i ∈ Finset.range r.iNumInStreams := Finset.mem_range.mpr hi
  have hrest : ∑ j ∈ (Finset.range r.iNumInStreams).erase i,
      bytes ((r.setStream i s).spInStreams j).sBufferedChunkList =
        ∑ j ∈ (Finset.range r.iNumInStreams).erase i,
          bytes (r.spInStreams j).sBufferedChunkList := by
    refine Finset.sum_congr rfl fun j hj => ?_
    simp [setStream, Finset.ne_of_mem_erase hj]
  have hnew := Finset.add_sum_erase (Finset.range r.iNumInStreams)
    (fun j => bytes ((r.setStream i s).spInStreams j).sBufferedChunkList) hmem
  have hold := Finset.add_sum_erase (Finset.range r.iNumInStreams)
    (fun j => bytes (r.spInStreams j).sBufferedChunkList) hmem
  have hself : ((r.setStream i s).spInStreams i).sBufferedChunkList = s.sBufferedChunkList := by
    simp [setStream]
  simp only [hrest, hself] at hnew
  have hbuf : (r.setStream i s).buffered = ∑ j ∈ Finset.range r.iNumInStreams,
      bytes ((r.setStream i s).spInStreams j).sBufferedChunkList := rfl
  rw [hbuf, ← hnew, buffered, ← hold]
  ring

theorem released_release {b : SctpDataChunkHdr} {bs : List SctpDataChunkHdr} {usNext : ℕ}
    (hb : (r.spInStreams i).sBufferedChunkList = b :: bs) (hid : b.usStreamId = i) :
    Released i r (r.release i usNext b bs) where
  others j hj := by
    have hne : b.usStreamId ≠ j := hid ▸ hj.symm
    simp [release, PassToUpperLayer, setStream, passedOn, hj, hne]
  tsns := rfl
  count := rfl
  window hi := by
    have := buffered_setStream hi ⟨(r.spInStreams i).eMode, usNext % 2 ^ 16, bs⟩
    rw [hb, bytes_cons] at this
    change r.uiMyRwnd + b.usLength + (r.setStream i _).buffered = _
    dsimp only at this
    omega

theorem Waits.release (h : Waits m i r G n (n :: ks)) :
    Waits m i (r.release i (n % 2 ^ 16 + 1) (m.message i n) (ks.map (m.message i))) G (n + 1)
      ks where
  stream := by simp [SctpReceiver.release, PassToUpperLayer, setStream, h.stream]
  sorted := (List.pairwise_cons.mp h.sorted).2
  ahead k hk := by
    have h1 := (List.pairwise_cons.mp h.sorted).1 k hk
    have h2 := (h.ahead k (List.mem_cons_of_mem n hk)).2
    omega
  passed := by
    have := h.passed
    simp only [passedOn] at this
    simp [SctpReceiver.release, PassToUpperLayer, setStream, passedOn, List.range_succ, this,
      m.stream]
  arrived k := by
    rw [h.arrived, List.mem_cons]
    constructor
    · rintro (hk | rfl | hk)
      · exact .inl (by omega)
      · exact .inl (by omega)
      · exact .inr hk
    · rintro (hk | hk)
      · rcases Nat.lt_succ_iff_lt_or_eq.mp hk with hk | rfl
        · exact .inl hk
        · exact .inr (.inl rfl)
      · exact .inr (.inr hk)

theorem Waits.releaseLoop (h : Waits m i r G n ks) :
    ∃ n' ks', Waits m i (releaseLoop i (ks.map (m.message i)) r) G n' ks' ∧ n' ∉ ks' ∧
      Released i r (SctpReceiver.releaseLoop i (ks.map (m.message i)) r) := by
  induction ks generalizing r n with
  | nil => exact ⟨n, [], h, by simp, .refl i r⟩
  | cons k ks ih =>
    have hk := h.ahead k (by simp)
    rw [List.map_cons, SctpReceiver.releaseLoop]
    simp only [h.stream, reduceCtorEq, false_and, if_false, m.seq]
    by_cases he : k = n
    · subst he
      rw [if_pos rfl]
      obtain ⟨n', ks', h1, h2, h3⟩ := ih h.release
      exact ⟨n', ks', h1, h2, (released_release (by rw [h.stream]; rfl) (m.stream i k)).trans h3⟩
    · rw [if_neg (by omega)]
      refine ⟨n, k :: ks, h, ?_, .refl i r⟩
      intro hn
      rcases List.mem_cons.mp hn with hn | hn
      · exact he hn.symm
      · have := (List.pairwise_cons.mp h.sorted).1 n hn
        omega

/-- A new message among those that wait. -/
theorem InsertInStreamBuffer_spec (hs : ks.Pairwise (· < ·)) (hk : k ∉ ks)
    (hnear : ∀ l ∈ ks, l / 2 ^ 16 = k / 2 ^ 16) :
    ∃ ks' : List ℕ,
      InsertInStreamBuffer (m.message i k) (ks.map (m.message i)) = ks'.map (m.message i) ∧
      ks'.Pairwise (· < ·) ∧ (∀ l, l ∈ ks' ↔ l = k ∨ l ∈ ks) ∧
      bytes (ks'.map (m.message i)) = (m.message i k).usLength + bytes (ks.map (m.message i)) := by
  induction ks with
  | nil => exact ⟨[k], rfl, by simp, by simp, by simp [bytes]⟩
  | cons l ks ih =>
    have hl := hnear l (by simp)
    have hne : k ≠ l := fun he => hk (he ▸ List.mem_cons_self)
    have hlt := List.pairwise_cons.mp hs
    rw [List.map_cons, InsertInStreamBuffer]
    simp only [m.seq]
    by_cases hle : k % 2 ^ 16 ≤ l % 2 ^ 16
    · rw [if_pos hle, if_pos (by omega)]
      refine ⟨k :: l :: ks, rfl, ?_, fun j => List.mem_cons, bytes_cons _ _⟩
      refine List.pairwise_cons.mpr ⟨fun j hj => ?_, hs⟩
      rcases List.mem_cons.mp hj with rfl | hj
      · omega
      · have := hlt.1 j hj
        omega
    · rw [if_neg hle]
      obtain ⟨ks', h1, h2, h3, h4⟩ := ih hlt.2 (fun h => hk (List.mem_cons_of_mem l h))
        fun j hj => hnear j (List.mem_cons_of_mem l hj)
      refine ⟨l :: ks', by rw [h1]; rfl, ?_, fun j => ?_, ?_⟩
      · refine List.pairwise_cons.mpr ⟨fun j hj => ?_, h2⟩
        rcases (h3 j).mp hj with rfl | hj
        · omega
        · exact hlt.1 j hj
      · rw [List.mem_cons, h3, List.mem_cons]
        exact or_left_comm
      · rw [List.map_cons, bytes_cons, h4, bytes_cons]
        omega

/-! ### All streams -/

/-- The streams in `done` have passed up all that they can. -/
structure Serves (m : SentStreams N) (window : ℕ) (done : ℕ → Prop) (r : SctpReceiver)
    (G : List (ℕ × ℕ)) : Prop where
  count : r.iNumInStreams = N
  streams : ∀ i < N, ∃ n ks, Waits m i r G n ks ∧ (done i → n ∉ ks)
  window : r.uiMyRwnd + r.buffered = window

variable {done : ℕ → Prop}

theorem Serves.updateStream (h : Serves m window done r G) (hi : i < N) :
    Serves m window (fun j => done j ∨ j = i) (r.UpdateStream i) G ∧
      (r.UpdateStream i).tsns = r.tsns := by
  obtain ⟨n, ks, hw, -⟩ := h.streams i hi
  obtain ⟨n', ks', h1, h2, h3⟩ := hw.releaseLoop
  have hup : r.UpdateStream i = releaseLoop i (ks.map (m.message i)) r := by
    rw [UpdateStream, hw.stream]
  rw [hup]
  refine ⟨⟨h3.count.trans h.count, fun j hj => ?_, (h3.window (h.count ▸ hi)).trans h.window⟩,
    h3.tsns⟩
  by_cases hji : j = i
  · subst hji
    exact ⟨n', ks', h1, fun _ => h2⟩
  · obtain ⟨l, ls, hl, hdone⟩ := h.streams j hj
    exact ⟨l, ls, hl.congr (h3.others j hji).1 (h3.others j hji).2,
      fun hd => hdone (hd.resolve_right hji)⟩

theorem Serves.updateAllStreams (h : Serves m window done r G) :
    Serves m window (fun _ => True) r.UpdateAllStreams G ∧ r.UpdateAllStreams.tsns = r.tsns := by
  have hloop : ∀ M ≤ N, Serves m window (· < M) ((List.range M).foldl UpdateStream r) G ∧
      ((List.range M).foldl UpdateStream r).tsns = r.tsns := by
    intro M hM
    induction M with
    | zero => exact ⟨⟨h.count, fun i hi => by
        obtain ⟨n, ks, hw, -⟩ := h.streams i hi
        exact ⟨n, ks, hw, fun hf => absurd hf (Nat.not_lt_zero i)⟩, h.window⟩, rfl⟩
    | succ M ih =>
      obtain ⟨h1, h2⟩ := ih (by omega)
      obtain ⟨h3, h4⟩ := h1.updateStream (i := M) (by omega)
      rw [List.range_succ, List.foldl_append]
      refine ⟨⟨h3.count, fun i hi => ?_, h3.window⟩, h4.trans h2⟩
      obtain ⟨n, ks, hw, hdone⟩ := h3.streams i hi
      exact ⟨n, ks, hw, fun hlt => hdone (Nat.lt_succ_iff_lt_or_eq.mp hlt)⟩
  obtain ⟨h1, h2⟩ := hloop N le_rfl
  rw [UpdateAllStreams, h.count]
  refine ⟨⟨h1.count, fun i hi => ?_, h1.window⟩, h2⟩
  obtain ⟨n, ks, hw, hdone⟩ := h1.streams i hi
  exact ⟨n, ks, hw, fun _ => hdone hi⟩

theorem Serves.take (h : Serves m window (fun _ => True) r G) (hi : i < N) (hnew : (i, k) ∉ G)
    (hroom : (m.message i k).usLength ≤ r.uiMyRwnd)
    (hnear : k / 2 ^ 16 = (r.passedOn i).length / 2 ^ 16) {u : RecvTsns} :
    Serves m window (fun _ => False) (PassToStream (m.message i k)
      { r with
        uiMyRwnd := r.uiMyRwnd - (m.message i k).usLength
        tsns := u }) ((i, k) :: G) := by
  obtain ⟨n, ks, hw, -⟩ := h.streams i hi
  have hlen : (r.passedOn i).length = n := by simp [hw.passed]
  rw [hlen] at hnear
  have hk := mt (hw.arrived k).mpr hnew
  obtain ⟨ks', h1, h2, h3, h4⟩ := InsertInStreamBuffer_spec (m := m) (i := i) hw.sorted
    (fun hmem => hk (.inr hmem)) fun l hl => (hw.ahead l hl).2.trans hnear.symm
  have hpass : PassToStream (m.message i k)
      { r with
        uiMyRwnd := r.uiMyRwnd - (m.message i k).usLength
        tsns := u } =
      setStream i ⟨.RELIABLE, n % 2 ^ 16, ks'.map (m.message i)⟩
        { r with
          uiMyRwnd := r.uiMyRwnd - (m.message i k).usLength
          tsns := u } := by
    simp [PassToStream, m.ordered, m.stream, hw.stream, h1]
  rw [hpass]
  refine ⟨h.count, fun j hj => ?_, ?_⟩
  · by_cases hji : j = i
    · subst hji
      refine ⟨n, ks', ⟨by simp [setStream], h2, fun l hl => ?_, hw.passed, fun l => ?_⟩, fun hf =>
        hf.elim⟩
      · rcases (h3 l).mp hl with rfl | hl
        · exact ⟨not_lt.mp fun hlt => hk (.inl hlt), hnear⟩
        · exact hw.ahead l hl
      · rw [List.mem_cons, hw.arrived, h3, Prod.mk.injEq]
        tauto
    · obtain ⟨l, ls, hl, -⟩ := h.streams j hj
      refine ⟨l, ls, ⟨?_, hl.sorted, hl.ahead, hl.passed, fun a => ?_⟩, fun hf => hf.elim⟩
      · simp [setStream, hji, hl.stream]
      · rw [List.mem_cons, ← hl.arrived]
        simp [hji]
  · have hset := buffered_setStream (r := r) (h.count ▸ hi)
      ⟨.RELIABLE, n % 2 ^ 16, ks'.map (m.message i)⟩
    rw [hw.stream] at hset
    dsimp only at hset
    have := h.window
    change r.uiMyRwnd - _ + (r.setStream i _).buffered = window
    omega

/-! ### Runs -/

/-- The TSNs of messages. -/
def tsnsOf (m : SentStreams N) (G : List (ℕ × ℕ)) : Set ℕ :=
  {t | ∃ a ∈ G, t = (m.message a.1 a.2).uiTsn}

structure Kept (m : SentStreams N) (window : ℕ) (x : SctpReceiver × List (ℕ × ℕ)) : Prop where
  serves : Serves m window (fun _ => True) x.1 x.2
  ids : ∀ a ∈ x.2, a.1 < N
  holds : RecvTsns.Holds x.1.tsns (tsnsOf m x.2)
  highest : ∀ t ∈ tsnsOf m x.2, t ≤ x.1.tsns.uiHighestRecvTsn

theorem tsnsOf_cons (a : ℕ × ℕ) :
    tsnsOf m (a :: G) = insert (m.message a.1 a.2).uiTsn (tsnsOf m G) := by
  ext t
  simp [tsnsOf]

theorem mem_tsnsOf (hG : ∀ a ∈ G, a.1 < N) (hi : i < N) :
    (m.message i k).uiTsn ∈ tsnsOf m G ↔ (i, k) ∈ G := by
  constructor
  · rintro ⟨a, ha, he⟩
    obtain ⟨rfl, rfl⟩ := m.tsn_inj i hi a.1 (hG a ha) k a.2 he
    exact ha
  · exact fun h => ⟨_, h, rfl⟩

theorem kept_start (m : SentStreams N) (window : ℕ) : Kept m window (start N window, []) where
  serves := by
    refine ⟨rfl, fun i _ => ⟨0, [], ⟨rfl, .nil, by simp, rfl, by simp⟩, by simp⟩, ?_⟩
    simp [buffered, start, bytes]
  ids := by simp
  holds := by
    have : tsnsOf m [] = ∅ := by ext t; simp [tsnsOf]
    rw [this]
    exact RecvTsns.kept_new.holds
  highest := by simp [tsnsOf]

theorem Kept.right (h : Kept m window x) : Right m window x where
  in_order i hi := by
    obtain ⟨n, ks, hw, hn⟩ := h.serves.streams i hi
    exact ⟨n, hw.passed, fun k hk => (hw.arrived k).mpr (.inl hk), fun hG =>
      ((hw.arrived n).mp hG).elim (lt_irrefl n) (hn trivial)⟩
  window := h.serves.window

theorem Serves.again (h : Serves m window done r G) {a : ℕ × ℕ} (ha : a ∈ G)
    (hr : r'.spInStreams = r.spInStreams ∧ r'.passed = r.passed ∧
      r'.iNumInStreams = r.iNumInStreams ∧ r'.uiMyRwnd = r.uiMyRwnd) :
    Serves m window done r' (a :: G) := by
  obtain ⟨h1, h2, h3, h4⟩ := hr
  refine ⟨h3.trans h.count, fun i hi => ?_, by rw [buffered, h1, h3, h4]; exact h.window⟩
  obtain ⟨n, ks, hw, hdone⟩ := h.streams i hi
  refine ⟨n, ks, ⟨by rw [h1, hw.stream], hw.sorted, hw.ahead, by rw [passedOn, h2]; exact hw.passed,
    fun k => ?_⟩, hdone⟩
  rw [List.mem_cons, ← hw.arrived]
  exact ⟨fun hk => hk.elim (fun he => he ▸ ha) id, .inr⟩

theorem Kept.step (h : Kept m window x) {a : ℕ × ℕ} (ha : a.1 < N) (hnear : Near m x a) :
    ∃ y o, SctpReceiver.step m x a = some (y, o) ∧ Kept m window y := by
  obtain ⟨r, G⟩ := x
  obtain ⟨i, k⟩ := a
  refine ⟨_, (), rfl, ?_⟩
  dsimp only
  by_cases hroom : (m.message i k).usLength ≤ r.uiMyRwnd
  · rw [if_pos hroom, ProcessDataChunk, if_pos hroom]
    obtain ⟨h1, h2, h3⟩ := h.holds.receive_data h.highest (m.tsn_pos i k)
    rw [mem_tsnsOf h.ids ha] at h3
    have hids : ∀ b ∈ (i, k) :: G, b.1 < N := by
      intro b hb
      rcases List.mem_cons.mp hb with rfl | hb
      · exact ha
      · exact h.ids b hb
    dsimp only at h1 h2 h3 ⊢
    by_cases hnew : (i, k) ∈ G
    · rw [if_neg (fun hr => h3.mp hr hnew)]
      exact ⟨h.serves.again hnew ⟨rfl, rfl, rfl, rfl⟩, hids, by rwa [tsnsOf_cons],
        by rwa [tsnsOf_cons]⟩
    · rw [if_pos (h3.mpr hnew)]
      obtain ⟨h4, h5⟩ := (h.serves.take ha hnew hroom (hnear hroom hnew).1
        (u := (r.tsns.receive (m.message i k).uiTsn).1)).updateAllStreams
      have h6 : (PassToStream (m.message i k)
          { r with
            uiMyRwnd := r.uiMyRwnd - (m.message i k).usLength
            tsns := (r.tsns.receive (m.message i k).uiTsn).1 }).tsns =
              (r.tsns.receive (m.message i k).uiTsn).1 := by
        simp [PassToStream, m.ordered, setStream]
      rw [h6] at h5
      refine ⟨h4, hids, ?_, ?_⟩
      · dsimp only
        rwa [h5, tsnsOf_cons]
      · dsimp only
        rwa [h5, tsnsOf_cons]
  · rw [if_neg hroom, ProcessDataChunk, if_neg hroom]
    exact h

/-- Whatever the order of arrival, every stream passes up its messages once and in order, as long
as a message that is taken in is near the next one. -/
theorem passes_in_order (m : SentStreams N) (window : ℕ) {arrivals : List (ℕ × ℕ)}
    (hids : ∀ a ∈ arrivals, a.1 < N)
    (hnear : Machine.Admits (step m) (Near m) (start N window, []) arrivals) :
    Machine.Always (step m) (Right m window) (start N window, []) arrivals :=
  Machine.always_of_admits (I := Kept m window) (fun _ h => h.right)
    (fun _ _ h ha hn => h.step ha hn) (kept_start m window)
    (Machine.admits_of_forall hids (start N window, [])) hnear

/-- One stream whose messages of 100 bytes have the TSNs from 1 on. -/
def oneStream : SentStreams 1 where
  message i k := ⟨100, k + 1, i, k % 2 ^ 16, false⟩
  seq _ _ := rfl
  stream _ _ := rfl
  ordered _ _ := rfl
  tsn_pos _ _ := Nat.succ_pos _
  tsn_inj i hi j hj k l he := ⟨by omega, Nat.succ.inj he⟩

instance (x : SctpReceiver × List (ℕ × ℕ)) (a : ℕ × ℕ) : Decidable (Near m x a) :=
  inferInstanceAs (Decidable (_ → _ → _))

/-- A duplicate, and a message that arrives before the one it follows. -/
theorem passes_in_order_three :
    ((∀ a ∈ [(0, 1), (0, 1), (0, 0)], a.1 < 1) ∧
      Machine.Admits (step oneStream) (Near oneStream) (start 1 1000, [])
        [(0, 1), (0, 1), (0, 0)]) ∧
      Machine.Always (step oneStream) (Right oneStream 1000) (start 1 1000, [])
        [(0, 1), (0, 1), (0, 0)] := by
  have h : Machine.Admits (step oneStream) (Near oneStream) (start 1 1000, [])
      [(0, 1), (0, 1), (0, 0)] := by decide
  exact ⟨⟨by decide, h⟩, passes_in_order oneStream 1000 (by decide) h⟩

/-- Message 65536 has the sequence number of the missing message 0 and is passed up for it. -/
theorem overtaken : ¬ Machine.Always (step oneStream) (Right oneStream 1000) (start 1 1000, [])
    [(0, 65536)] := by
  rintro ⟨-, x, _, hx, hright⟩
  obtain ⟨rfl, -⟩ := Prod.mk.inj (Option.some.inj hx)
  obtain ⟨n, hn, -⟩ := hright.in_order 0 (by decide)
  have hpassed : passedOn 0 ((start 1 1000).ProcessDataChunk (oneStream.message 0 65536)) =
      [oneStream.message 0 65536] := by decide
  rw [hpassed] at hn
  cases n with
  | zero => simp at hn
  | succ n =>
    rw [List.range_succ_eq_map, List.map_cons] at hn
    exact absurd (List.cons.inj hn).1 (by decide)

end SctpReceiver

end Ns2
