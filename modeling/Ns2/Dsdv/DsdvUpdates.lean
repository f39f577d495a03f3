import Ns2.Lib.ByteRecords
import Ns2.Lib.SortedMap

/-! The routing table of a DSDV node, the update packets that it makes of the table, and how they
are read. -/

namespace Ns2

open ByteRecords

/-- `nsaddr_t`, a signed word -/
abbrev Nsaddr := { a : ℤ // -2 ^ 31 ≤ a ∧ a < 2 ^ 31 }

namespace Nsaddr

def ofWord (v : BitVec 32) : Nsaddr := ⟨v.toInt, BitVec.le_toInt v, BitVec.toInt_lt⟩

def word (a : Nsaddr) : BitVec 32 := BitVec.ofInt 32 a.val

theorem ofWord_word (a : Nsaddr) : ofWord a.word = a := by
  apply Subtype.ext
  change (BitVec.ofInt 32 a.val).toInt = a.val
  have := a.property
  rw [BitVec.toInt_ofInt]
  exact Int.bmod_eq_of_le (by omega) (by omega)

end Nsaddr

/-- `BIG` -/
def dsdvBig : BitVec 32 := 250

/-- An entry of the table, whose `dst` is the key there. -/
structure RtableEnt where
  hop : Nsaddr
  metric : BitVec 32
  seqnum : BitVec 32
  advertise_ok_at : ℚ≥0
  advert_seqnum : Bool
  advert_metric : Bool
  last_advertised_metric : BitVec 32

abbrev RoutingTable := SortedMap Nsaddr RtableEnt

/-- The data of an update packet. -/
structure DsdvUpdate where
  size : ℕ
  data : Memory

/-- What an update tells of a destination. -/
structure DsdvRoute where
  dst : Nsaddr
  metric : BitVec 32
  seqnum : BitVec 32
  deriving DecidableEq

/-- The nine bytes that `makeUpdate` writes for an entry. -/
def routeBytes (dst seqnum metric : BitVec 32) : List Byte :=
  [(dst.sshiftRight 24).setWidth 8, (dst.sshiftRight 16 &&& 0xFF).setWidth 8,
    (dst.sshiftRight 8 &&& 0xFF).setWidth 8, (dst.sshiftRight 0 &&& 0xFF).setWidth 8,
    metric.setWidth 8, (seqnum >>> 24).setWidth 8, (seqnum >>> 16 &&& 0xFF).setWidth 8,
    (seqnum >>> 8 &&& 0xFF).setWidth 8, (seqnum &&& 0xFF).setWidth 8]

/-- The nine bytes as `processUpdate` takes them. -/
def readRoute (m : Memory) (w : ℕ) : DsdvRoute where
  dst := .ofWord (beWord m w)
  metric := (m (w + 4)).setWidth 32
  seqnum := beWord m (w + 5)

namespace DsdvUpdate

/-- The loop of `processUpdate` over the entries. -/
def walk (m : Memory) : ℕ → ℕ → List DsdvRoute
  | _, 0 => []
  | w, i + 1 => readRoute m w :: walk m (w + 9) i

def routes (p : DsdvUpdate) : List DsdvRoute := walk p.data 1 (p.data 0).toNat

/-- The number of bytes that are read. -/
def bytesRead (p : DsdvUpdate) : ℕ := 1 + 9 * (p.data 0).toNat

end DsdvUpdate

structure DsdvAgent where
  myaddr_ : Nsaddr
  seqno_ : BitVec 32
  table_ : RoutingTable

namespace DsdvAgent

/-- What a triggered update is made of. -/
def changed (now : ℚ≥0) (e : RtableEnt) : Bool :=
  (e.advert_seqnum || e.advert_metric) && e.advertise_ok_at ≤ now

def changeCount (now : ℚ≥0) (l : List (Nsaddr × RtableEnt)) : ℕ :=
  l.countP fun e => changed now e.2

def unadvertiseable (now : ℚ≥0) (l : List (Nsaddr × RtableEnt)) : ℕ :=
  l.countP fun e => e.2.advertise_ok_at > now

/-- The entry of the node itself in a periodic update. -/
def ownEntry (a : DsdvAgent) (seqno : BitVec 32) : RtableEnt where
  hop := a.myaddr_
  metric := 0
  seqnum := seqno
  advertise_ok_at := 0
  advert_seqnum := true
  advert_metric := false
  last_advertised_metric := 0

def included (now : ℚ≥0) (periodic : Bool) (e : RtableEnt) : Bool :=
  if periodic && e.advertise_ok_at > now then false else periodic || changed now e

def advertise (periodic : Bool) (e : RtableEnt) : RtableEnt :=
  { e with
    last_advertised_metric := e.metric
    advert_seqnum := false
    advert_metric := if periodic then false else e.advert_metric }

structure UpdateLoop where
  data : Memory
  walk : ℕ
  change_count : ℤ
  rtab : List (Nsaddr × RtableEnt)

/-- The loop over the table: the entries that are included are written and marked. -/
def updateLoop (now : ℚ≥0) (periodic : Bool) (m : Memory) (walk : ℕ) (change_count : ℤ) :
    List (Nsaddr × RtableEnt) → UpdateLoop
  | [] => ⟨m, walk, change_count, []⟩
  | (dst, e) :: l =>
    if included now periodic e then
      let r := updateLoop now periodic
        (putBytes m walk (routeBytes dst.word e.seqnum e.metric)) (walk + 9) (change_count - 1) l
      { r with rtab := (dst, advertise periodic e) :: r.rtab }
    else
      let r := updateLoop now periodic m walk change_count l
      { r with rtab := (dst, e) :: r.rtab }

theorem updateLoop_rtab (now : ℚ≥0) (periodic : Bool) (m : Memory) (walk : ℕ) (change_count : ℤ)
    (l : List (Nsaddr × RtableEnt)) : (updateLoop now periodic m walk change_count l).rtab =
      l.map fun e => (e.1, if included now periodic e.2 then advertise periodic e.2 else e.2) := by
  induction l generalizing m walk change_count with
  | nil => rfl
  | cons e l ih =>
    obtain ⟨dst, e⟩ := e
    rw [updateLoop, List.map_cons]
    split_ifs
    · exact congrArg (_ :: ·) (ih _ _ _)
    · exact congrArg (_ :: ·) (ih _ _ _)

/-- The second half of `makeUpdate`: the packet is written. The outer `none` is the failed
assertion, the inner one `NULL`. -/
def writeUpdate (a : DsdvAgent) (now : ℚ≥0) (periodic : Bool) (change_count : ℤ) :
    Option (DsdvAgent × Bool × Option DsdvUpdate) :=
  if change_count = 0 then some (a, periodic, none)
  else
    let m := Function.update (fun _ => 0) 0 (BitVec.ofInt 8 change_count)
    let r := updateLoop now periodic m 1 change_count a.table_.entries
    if r.change_count = 0 then
      some ({ a with table_ := ⟨r.rtab, by
          rw [updateLoop_rtab]
          exact List.pairwise_map.mpr a.table_.sorted⟩ }, periodic,
        some ⟨(change_count * 9 + 1).toNat, r.data⟩)
    else none

/-- `makeUpdate`, with the type of the update that was made -/
def makeUpdate (a : DsdvAgent) (now : ℚ≥0) (periodic : Bool) :
    Option (DsdvAgent × Bool × Option DsdvUpdate) :=
  let rtbl_sz := a.table_.entries.length
  let change_count := changeCount now a.table_.entries
  let periodic := periodic || (change_count * 3 > rtbl_sz && change_count > 3)
  if periodic then
    { a with
      seqno_ := a.seqno_ + 2
      table_ := a.table_.set a.myaddr_ (a.ownEntry (a.seqno_ + 2)) }.writeUpdate now periodic
      ((rtbl_sz : ℤ) - unadvertiseable now a.table_.entries)
  else a.writeUpdate now periodic change_count

/-- What an entry is told as. -/
def route (e : Nsaddr × RtableEnt) : DsdvRoute := ⟨e.1, e.2.metric, e.2.seqnum⟩

/-- A triggered update of much of the table is made a periodic one. -/
def isPeriodic (a : DsdvAgent) (now : ℚ≥0) (periodic : Bool) : Bool :=
  periodic || (changeCount now a.table_.entries * 3 > a.table_.entries.length &&
    changeCount now a.table_.entries > 3)

/-- The table with a new entry for the node itself, where the update is periodic. -/
def refreshed (a : DsdvAgent) (now : ℚ≥0) (periodic : Bool) : DsdvAgent :=
  if a.isPeriodic now periodic then
    { a with
      seqno_ := a.seqno_ + 2
      table_ := a.table_.set a.myaddr_ (a.ownEntry (a.seqno_ + 2)) }
  else a

/-- The entries that are advertised. -/
def advertised (a : DsdvAgent) (now : ℚ≥0) (periodic : Bool) : List (Nsaddr × RtableEnt) :=
  (a.refreshed now periodic).table_.entries.filter
    fun e => included now (a.isPeriodic now periodic) e.2

def marked (a : DsdvAgent) (now : ℚ≥0) (periodic : Bool) : List (Nsaddr × RtableEnt) :=
  (a.refreshed now periodic).table_.entries.map fun e =>
    (e.1, if included now (a.isPeriodic now periodic) e.2 then
      advertise (a.isPeriodic now periodic) e.2 else e.2)

/-- What holds of the table of a node that has started: the node itself may always be advertised,
and no metric is above `BIG`. -/
structure Started (a : DsdvAgent) : Prop where
  own : ∃ e, a.table_.find a.myaddr_ = some e ∧ e.advertise_ok_at = 0
  big : ∀ e ∈ a.table_.entries, e.2.metric.toNat ≤ dsdvBig.toNat

theorem shiftRight_byte (v : BitVec 32) {k : ℕ} (hk : k ≤ 24) :
    (v.sshiftRight k &&& 0xFF).setWidth 8 = v.extractLsb' k 8 := by
  apply BitVec.eq_of_getLsbD_eq
  intro i hi
  have hmask : (0xFF : BitVec 32).getLsbD i = true := by interval_cases i <;> decide
  rw [BitVec.getLsbD_setWidth, BitVec.getLsbD_and, BitVec.getLsbD_sshiftRight, hmask,
    if_pos (by omega), BitVec.getLsbD_extractLsb']
  simp [show ¬32 ≤ i by omega]

theorem ushiftRight_byte (v : BitVec 32) {k : ℕ} :
    (v >>> k &&& 0xFF).setWidth 8 = v.extractLsb' k 8 := by
  apply BitVec.eq_of_getLsbD_eq
  intro i hi
  have hmask : (0xFF : BitVec 32).getLsbD i = true := by interval_cases i <;> decide
  rw [BitVec.getLsbD_setWidth, BitVec.getLsbD_and, BitVec.getLsbD_ushiftRight, hmask,
    BitVec.getLsbD_extractLsb', Bool.and_true]

/-- An entry that was written is read again. -/
theorem readRoute_putBytes {m m' : Memory} {w : ℕ} {e : Nsaddr × RtableEnt}
    (hmetric : e.2.metric.toNat < 256)
    (h : SameOn w (w + 9) (putBytes m w (routeBytes e.1.word e.2.seqnum e.2.metric)) m') :
    readRoute m' w = route e := by
  have hat : ∀ j < 9, m' (w + j) = (routeBytes e.1.word e.2.seqnum e.2.metric).getD j 0 :=
    fun j hj => by rw [h _ (by omega) (by omega), putBytes_at hj]
  have h24 : ∀ v : BitVec 32, (v.sshiftRight 24).setWidth 8 = v.extractLsb' 24 8 := fun v => by
    apply BitVec.eq_of_getLsbD_eq
    intro i hi
    rw [BitVec.getLsbD_setWidth, BitVec.getLsbD_sshiftRight, if_pos (by omega),
      BitVec.getLsbD_extractLsb']
    simp [show ¬32 ≤ i by omega]
  have hu24 : ∀ v : BitVec 32, (v >>> 24).setWidth 8 = v.extractLsb' 24 8 := fun v => by
    apply BitVec.eq_of_getLsbD_eq
    intro i hi
    simp [hi, show i < 32 by omega]
  have hdst : beWord m' w = e.1.word := by
    have h0 : m' w = e.1.word.extractLsb' 24 8 := (hat 0 (by omega)).trans (h24 _)
    have h1 : m' (w + 1) = e.1.word.extractLsb' 16 8 :=
      (hat 1 (by omega)).trans (shiftRight_byte _ (by omega))
    have h2 : m' (w + 2) = e.1.word.extractLsb' 8 8 :=
      (hat 2 (by omega)).trans (shiftRight_byte _ (by omega))
    have h3 : m' (w + 3) = e.1.word.extractLsb' 0 8 :=
      (hat 3 (by omega)).trans (shiftRight_byte _ (by omega))
    rw [beWord_eq, h0, h1, h2, h3, append_extract]
  have hseqnum : beWord m' (w + 5) = e.2.seqnum := by
    have h0 : m' (w + 5) = e.2.seqnum.extractLsb' 24 8 := (hat 5 (by omega)).trans (hu24 _)
    have h1 : m' (w + 5 + 1) = e.2.seqnum.extractLsb' 16 8 :=
      (hat 6 (by omega)).trans (ushiftRight_byte _)
    have h2 : m' (w + 5 + 2) = e.2.seqnum.extractLsb' 8 8 :=
      (hat 7 (by omega)).trans (ushiftRight_byte _)
    have h3 : m' (w + 5 + 3) = e.2.seqnum.extractLsb' 0 8 := by
      refine (hat 8 (by omega)).trans ?_
      have := ushiftRight_byte e.2.seqnum (k := 0)
      rwa [BitVec.ushiftRight_zero] at this
    rw [beWord_eq, h0, h1, h2, h3, append_extract]
  have hmet : (m' (w + 4)).setWidth 32 = e.2.metric := by
    have h4 : m' (w + 4) = e.2.metric.setWidth 8 := hat 4 (by omega)
    apply BitVec.eq_of_toNat_eq
    rw [h4, BitVec.toNat_setWidth, BitVec.toNat_setWidth]
    omega
  rw [readRoute, hdst, hseqnum, hmet, Nsaddr.ofWord_word]
  rfl

theorem updateLoop_spec (now : ℚ≥0) (periodic : Bool) (m : Memory) (walk : ℕ) (change_count : ℤ)
    {l : List (Nsaddr × RtableEnt)} (hl : ∀ e ∈ l, e.2.metric.toNat < 256) :
    (updateLoop now periodic m walk change_count l).change_count =
        change_count - (l.filter fun e => included now periodic e.2).length ∧
      (∀ i < walk, (updateLoop now periodic m walk change_count l).data i = m i) ∧
      DsdvUpdate.walk (updateLoop now periodic m walk change_count l).data walk
          (l.filter fun e => included now periodic e.2).length =
        (l.filter fun e => included now periodic e.2).map route := by
  induction l generalizing m walk change_count with
  | nil => exact ⟨by simp [updateLoop], fun _ _ => rfl, rfl⟩
  | cons e l ih =>
    obtain ⟨dst, e⟩ := e
    have hrest : ∀ e ∈ l, e.2.metric.toNat < 256 := fun e he => hl e (List.mem_cons_of_mem _ he)
    rw [updateLoop]
    by_cases hin : included now periodic e = true
    · obtain ⟨h1, h2, h3⟩ := ih (putBytes m walk (routeBytes dst.word e.seqnum e.metric)) (walk + 9)
        (change_count - 1) hrest
      have hfilter : ((dst, e) :: l).filter (fun e => included now periodic e.2) =
          (dst, e) :: l.filter fun e => included now periodic e.2 := List.filter_cons_of_pos hin
      rw [if_pos hin, hfilter, List.length_cons, List.map_cons]
      refine ⟨?_, fun i hi => ?_, ?_⟩
      · dsimp only
        rw [h1]
        push_cast
        omega
      · dsimp only
        rw [h2 i (by omega), putBytes_other (.inl hi)]
      · rw [DsdvUpdate.walk]
        refine congrArg₂ List.cons ?_ h3
        exact readRoute_putBytes (m := m) (hl (dst, e) (by simp)) fun i _ hi => h2 i hi
    · have hfilter : ((dst, e) :: l).filter (fun e => included now periodic e.2) =
          l.filter fun e => included now periodic e.2 := List.filter_cons_of_neg hin
      rw [if_neg hin, hfilter]
      exact ih m walk change_count hrest

/-- A new value for a key that is there keeps the number of the entries with a property that it
shares with the old one. -/
theorem countP_setEntry {l : List (Nsaddr × RtableEnt)} (hl : l.Pairwise fun a b => a.1 < b.1)
    {k : Nsaddr} {e : RtableEnt} (hfind : SortedMap.findEntry k l = some e) (e' : RtableEnt)
    (p : Nsaddr × RtableEnt → Bool) (hp : p (k, e') = p (k, e)) :
    (SortedMap.setEntry k e' l).countP p = l.countP p := by
  induction l with
  | nil => cases hfind
  | cons c l ih =>
    obtain ⟨hc, hrest⟩ := List.pairwise_cons.mp hl
    rw [SortedMap.findEntry] at hfind
    rw [SortedMap.setEntry]
    by_cases hk : c.1 = k
    · rw [if_pos hk] at hfind
      obtain rfl := Option.some.inj hfind
      rw [if_neg (by rw [hk]; exact lt_irrefl k), if_pos hk.symm]
      have hsame : c = (k, c.2) := by rw [← hk]
      rw [hsame, List.countP_cons, List.countP_cons]
      rw [show p (k, (k, c.2).2) = p (k, c.2) from rfl, hp]
    · rw [if_neg hk] at hfind
      have hlt : ¬k < c.1 := fun hlt => by
        have hmem := SortedMap.mem_entries.mpr
          (show SortedMap.find ⟨l, hrest⟩ k = some e from hfind)
        exact absurd (hc _ hmem) (not_lt.mpr hlt.le)
      rw [if_neg hlt, if_neg (Ne.symm hk), List.countP_cons, List.countP_cons, ih hrest hfind]

theorem included_true (now : ℚ≥0) (e : RtableEnt) :
    included now true e = decide (e.advertise_ok_at ≤ now) := by
  by_cases h : e.advertise_ok_at > now
  · simp [included, h]
  · simp [included, not_lt.mp h]

theorem included_false (now : ℚ≥0) (e : RtableEnt) : included now false e = changed now e := by
  simp [included]

/-- The entries that are written are as many as were counted. -/
theorem advertised_length {a : DsdvAgent} (ha : a.Started) (now : ℚ≥0) (periodic : Bool) :
    ((a.advertised now periodic).length : ℤ) = if a.isPeriodic now periodic then
      (a.table_.entries.length : ℤ) - unadvertiseable now a.table_.entries
    else changeCount now a.table_.entries := by
  obtain ⟨e, hfind, hzero⟩ := ha.own
  unfold advertised refreshed
  by_cases hper : a.isPeriodic now periodic = true
  · rw [if_pos hper, if_pos hper, hper, ← List.countP_eq_length_filter]
    have hown : included now true (a.ownEntry (a.seqno_ + 2)) = included now true e := by
      rw [included_true, included_true, hzero]
      rfl
    have hcount := countP_setEntry a.table_.sorted hfind (a.ownEntry (a.seqno_ + 2))
      (fun e => included now true e.2) hown
    change ((List.countP _ (SortedMap.setEntry _ _ _) : ℕ) : ℤ) = _
    have hfun : (fun e : Nsaddr × RtableEnt => included now true e.2) =
        fun e => decide (e.2.advertise_ok_at ≤ now) := funext fun e => included_true now e.2
    rw [hcount, hfun, unadvertiseable,
      List.length_eq_countP_add_countP fun e => decide (e.2.advertise_ok_at > now)]
    simp
  · rw [if_neg hper, if_neg hper, ← List.countP_eq_length_filter]
    have hfalse : a.isPeriodic now periodic = false := by simpa using hper
    have hfun : (fun e : Nsaddr × RtableEnt => included now false e.2) =
        fun e => changed now e.2 := funext fun e => included_false now e.2
    rw [hfalse, hfun]
    rfl

theorem refreshed_big {a : DsdvAgent} (ha : a.Started) (now : ℚ≥0) (periodic : Bool) :
    ∀ e ∈ (a.refreshed now periodic).table_.entries, e.2.metric.toNat < 256 := by
  have hbig : dsdvBig.toNat = 250 := rfl
  intro e he
  unfold refreshed at he
  split_ifs at he
  · rcases SortedMap.mem_setEntry he with rfl | he
    · exact Nat.zero_lt_succ _
    · have := ha.big e he
      omega
  · have := ha.big e he
    omega

theorem walk_length (m : Memory) (w i : ℕ) : (DsdvUpdate.walk m w i).length = i := by
  induction i generalizing w with
  | zero => rfl
  | succ i ih => rw [DsdvUpdate.walk, List.length_cons, ih]

theorem makeUpdate_eq {a : DsdvAgent} (ha : a.Started) (now : ℚ≥0) (periodic : Bool) :
    a.makeUpdate now periodic = (a.refreshed now periodic).writeUpdate now
      (a.isPeriodic now periodic) (a.advertised now periodic).length := by
  rw [advertised_length ha]
  change (if a.isPeriodic now periodic = true then _ else _) = _
  rw [refreshed]
  split_ifs with hper
  · rfl
  · rfl

/-- The update of the entries that are advertised, where there is one. -/
def update (a : DsdvAgent) (now : ℚ≥0) (periodic : Bool) : DsdvUpdate :=
  let n := (a.advertised now periodic).length
  ⟨n * 9 + 1, (updateLoop now (a.isPeriodic now periodic)
    (Function.update (fun _ => 0) 0 (BitVec.ofInt 8 n)) 1 n
    (a.refreshed now periodic).table_.entries).data⟩

/-- The number of entries that a receiver sees is a byte. -/
theorem update_count (a : DsdvAgent) (ha : a.Started) (now : ℚ≥0) (periodic : Bool) :
    ((a.update now periodic).data 0).toNat = (a.advertised now periodic).length % 256 := by
  obtain ⟨-, hsame, -⟩ := updateLoop_spec now (a.isPeriodic now periodic)
    (Function.update (fun _ => 0) 0 (BitVec.ofInt 8 (a.advertised now periodic).length)) 1
    (a.advertised now periodic).length (refreshed_big ha now periodic)
  rw [update]
  dsimp only
  rw [hsame 0 (by omega), Function.update_self, BitVec.ofInt_natCast, BitVec.toNat_ofNat]

/-- As many entries as were counted are written, and where the assertion is checked, it holds. -/
theorem makeUpdate_eq_some {a : DsdvAgent} (ha : a.Started) (now : ℚ≥0) (periodic : Bool) :
    ∃ a', a.makeUpdate now periodic = some (a', a.isPeriodic now periodic,
        if a.advertised now periodic = [] then none else some (a.update now periodic)) ∧
      a'.table_.entries = a.marked now periodic := by
  obtain ⟨hcount, -, -⟩ := updateLoop_spec now (a.isPeriodic now periodic)
    (Function.update (fun _ => 0) 0 (BitVec.ofInt 8 (a.advertised now periodic).length)) 1
    (a.advertised now periodic).length (refreshed_big ha now periodic)
  change _ = _ - ((a.advertised now periodic).length : ℤ) at hcount
  rw [makeUpdate_eq ha, writeUpdate]
  by_cases hnil : a.advertised now periodic = []
  · rw [if_pos hnil, if_pos (by rw [hnil]; rfl)]
    refine ⟨_, rfl, ?_⟩
    rw [marked]
    conv_lhs => rw [← List.map_id (a.refreshed now periodic).table_.entries]
    apply List.map_congr_left
    intro e he
    rw [if_neg (List.filter_eq_nil_iff.mp hnil e he)]
    rfl
  · have hne : ((a.advertised now periodic).length : ℤ) ≠ 0 := by
      have := List.length_pos_of_ne_nil hnil
      omega
    rw [if_neg hnil, if_neg hne, if_pos (by rw [hcount, sub_self])]
    refine ⟨_, rfl, updateLoop_rtab _ _ _ _ _ _⟩

theorem update_routes (a : DsdvAgent) (ha : a.Started) (now : ℚ≥0) (periodic : Bool)
    (hle : (a.advertised now periodic).length ≤ 255) :
    (a.update now periodic).routes = (a.advertised now periodic).map route := by
  obtain ⟨-, -, hwalk⟩ := updateLoop_spec now (a.isPeriodic now periodic)
    (Function.update (fun _ => 0) 0 (BitVec.ofInt 8 (a.advertised now periodic).length)) 1
    (a.advertised now periodic).length (refreshed_big ha now periodic)
  rw [DsdvUpdate.routes, update_count a ha, Nat.mod_eq_of_lt (by omega)]
  exact hwalk

/-- The update holds the entries that are marked, as long as their number fits into its byte. -/
theorem makeUpdate_routes_iff {a : DsdvAgent} (ha : a.Started) (now : ℚ≥0) (periodic : Bool) :
    (∃ a' p, a.makeUpdate now periodic = some (a', a.isPeriodic now periodic, p) ∧
      a'.table_.entries = a.marked now periodic ∧
      (p = none ↔ a.advertised now periodic = []) ∧
      ∀ u ∈ p, u.routes = (a.advertised now periodic).map route ∧ u.bytesRead ≤ u.size) ↔
      (a.advertised now periodic).length ≤ 255 := by
  obtain ⟨a', hmake, hmarked⟩ := makeUpdate_eq_some ha now periodic
  constructor
  · rintro ⟨a'', p, hsome, -, -, hu⟩
    by_cases hnil : a.advertised now periodic = []
    · rw [hnil]
      exact Nat.zero_le _
    · rw [hmake, if_neg hnil] at hsome
      obtain ⟨-, hp⟩ := Prod.mk.inj (Option.some.inj hsome)
      obtain ⟨-, rfl⟩ := Prod.mk.inj hp
      have hroutes := congrArg List.length (hu _ rfl).1
      rw [DsdvUpdate.routes, walk_length, List.length_map, update_count a ha] at hroutes
      omega
  · intro hle
    refine ⟨a', _, hmake, hmarked, by simp, fun u hu => ?_⟩
    split_ifs at hu
    · exact nomatch hu
    · obtain rfl := Option.some.inj hu
      refine ⟨update_routes a ha now periodic hle, ?_⟩
      rw [DsdvUpdate.bytesRead, update_count a ha, Nat.mod_eq_of_lt (by omega)]
      change _ ≤ (a.advertised now periodic).length * 9 + 1
      omega

/-- A node, at address 0, that has heard of `n - 1` neighbours since its last update. -/
def heard (n : ℕ) (hn : n ≤ 2 ^ 31) : DsdvAgent where
  myaddr_ := ⟨0, by decide⟩
  seqno_ := 2
  table_ := ⟨(List.finRange n).map fun i => (⟨i.val, by omega, by omega⟩,
    ⟨⟨i.val, by omega, by omega⟩, if i.val = 0 then 0 else 1, 0, 0, true, false, 0⟩), by
      apply List.pairwise_map.mpr
      apply (List.pairwise_lt_finRange n).imp
      intro i j hij
      exact Subtype.mk_lt_mk.mpr (by exact_mod_cast hij)⟩

theorem heard_started {n : ℕ} (hn : n ≤ 2 ^ 31) (hpos : 0 < n) : (heard n hn).Started := by
  constructor
  · refine ⟨⟨⟨0, by decide⟩, 0, 0, 0, true, false, 0⟩, ?_, rfl⟩
    apply SortedMap.mem_entries.mp
    exact List.mem_map.mpr ⟨⟨0, hpos⟩, List.mem_finRange _, rfl⟩
  · intro e he
    obtain ⟨i, -, rfl⟩ := List.mem_map.mp he
    dsimp only
    split_ifs <;> decide

theorem heard_advertised {n : ℕ} (hn : n ≤ 2 ^ 31) (hpos : 0 < n) :
    ((heard n hn).advertised 0 true).length = n := by
  have hlength := advertised_length (heard_started hn hpos) 0 true
  rw [isPeriodic, Bool.true_or, if_pos rfl] at hlength
  have hsize : (heard n hn).table_.entries.length = n := by simp [heard]
  have hnone : unadvertiseable 0 (heard n hn).table_.entries = 0 := by
    apply List.countP_eq_zero.mpr
    intro e he
    obtain ⟨i, -, rfl⟩ := List.mem_map.mp he
    simp
  rw [hsize, hnone, Nat.cast_zero, sub_zero] at hlength
  exact Int.ofNat_inj.mp hlength

theorem heard_delivers :
    ∃ a' p, (heard 3 (by decide)).makeUpdate 0 true = some (a', true, p) ∧
      a'.table_.entries = (heard 3 (by decide)).marked 0 true ∧
      (p = none ↔ (heard 3 (by decide)).advertised 0 true = []) ∧
      ∀ u ∈ p, u.routes = ((heard 3 (by decide)).advertised 0 true).map route ∧
        u.bytesRead ≤ u.size :=
  (makeUpdate_routes_iff (heard_started (by decide) (by decide)) 0 true).mpr
    (by rw [heard_advertised _ (by decide)]; decide)

/-- An update of 256 entries is read as one of none. -/
theorem heard_lost :
    (heard 256 (by decide)).Started ∧
      ((heard 256 (by decide)).advertised 0 true).length = 256 ∧
      ∃ a' u, (heard 256 (by decide)).makeUpdate 0 true = some (a', true, some u) ∧
        u.size = 2305 ∧ u.routes = [] := by
  have hstarted := heard_started (n := 256) (by decide) (by decide)
  have hlength := heard_advertised (n := 256) (by decide) (by decide)
  obtain ⟨a', hmake, -⟩ := makeUpdate_eq_some hstarted 0 true
  rw [if_neg (fun h => by rw [h] at hlength; exact absurd hlength (by decide))] at hmake
  refine ⟨hstarted, hlength, a', _, hmake, ?_, ?_⟩
  · change _ * 9 + 1 = _
    rw [hlength]
  · rw [DsdvUpdate.routes, update_count _ hstarted, hlength]
    rfl

end DsdvAgent

end Ns2
