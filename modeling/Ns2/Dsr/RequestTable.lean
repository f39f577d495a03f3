import Ns2.Lib.Machine
import Ns2.Lib.RingWindow
import Ns2.Dsr.Path

/-! The table of the latest request numbers: a ring of entries, found by either identifier. -/

namespace Ns2

open RingWindow

def ID.invalid_addr : ID := ⟨0xffffffff, .none⟩

def ID.ofIp (addr : ℕ) : ID := ⟨addr, .ip⟩

inductive LastType
  | limit0
  | unlimit
  deriving DecidableEq

structure RequestTable.Entry where
  mac_id : ID
  net_id : ID
  req_num : ℤ
  last_arp : ℚ
  rt_reqs_outstanding : ℤ
  last_rt_req : ℚ
  last_type : LastType

structure RequestTable where
  table : ℕ → RequestTable.Entry
  size : ℕ
  ptr : ℕ

namespace RequestTable

def rt_rq_period : ℚ := 1 / 2

/-- The entries are not initialised, but for the types of their identifiers. -/
def new (size : ℕ) (raw : ℕ → Entry) : RequestTable where
  table i := { raw i with
    mac_id := ⟨(raw i).mac_id.addr, .none⟩
    net_id := ⟨(raw i).net_id.addr, .none⟩ }
  size := size
  ptr := 0

def Matches (e : Entry) (net_id mac_id : ID) : Prop := e.net_id = net_id ∨ e.mac_id = mac_id

instance (e : Entry) (net_id mac_id : ID) : Decidable (Matches e net_id mac_id) :=
  inferInstanceAs (Decidable (_ ∨ _))

def find (net_id mac_id : ID) (t : RequestTable) : ℕ :=
  ((List.range t.size).find? fun c => Matches (t.table c) net_id mac_id).getD t.size

def get (id : ID) (t : RequestTable) : ℤ :=
  let existing_entry := t.find id id
  if existing_entry ≥ t.size then 0 else (t.table existing_entry).req_num

/-- A new entry in place of the one at `ptr`. -/
def create (net_id mac_id : ID) (req_num : ℤ) (t : RequestTable) : RequestTable :=
  { t with
    table := Function.update t.table t.ptr
      { t.table t.ptr with
        mac_id := mac_id
        net_id := net_id
        req_num := req_num
        last_arp := 0
        rt_reqs_outstanding := 0
        last_rt_req := -(rt_rq_period + 1) }
    ptr := (t.ptr + 1) % t.size }

/-- The index of the entry that is returned. -/
def getEntry (id : ID) (t : RequestTable) : ℕ × RequestTable :=
  let existing_entry := t.find id id
  if existing_entry ≥ t.size then (t.ptr, t.create id .invalid_addr 0) else (existing_entry, t)

def insert (net_id mac_id : ID) (req_num : ℤ) (t : RequestTable) : RequestTable :=
  let existing_entry := t.find net_id mac_id
  if existing_entry < t.size then
    { t with
      table := Function.update t.table existing_entry
        { t.table existing_entry with
          mac_id := if (t.table existing_entry).mac_id = .invalid_addr then mac_id
            else (t.table existing_entry).mac_id
          req_num := req_num } }
  else t.create net_id mac_id req_num

end RequestTable

/-- The fields that the agent writes through the pointer from `getEntry`. -/
structure Backoff where
  last_arp : ℚ
  rt_reqs_outstanding : ℤ
  last_rt_req : ℚ
  last_type : LastType

def RequestTable.write (e : ℕ) (b : Backoff) (t : RequestTable) : RequestTable :=
  { t with
    table := Function.update t.table e
      { t.table e with
        last_arp := b.last_arp
        rt_reqs_outstanding := b.rt_reqs_outstanding
        last_rt_req := b.last_rt_req
        last_type := b.last_type } }

/-- The agent's uses of the table: the source of a request that is processed, the destination that a
route is asked for or found for, and the source of a request that has come in. -/
inductive TableCall
  | insert (src : ℕ) (rtreq_seq : ℤ)
  | getEntry (dest : ℕ) (b : Backoff)
  | get (src : ℕ)

namespace RequestTable

def call (t : RequestTable) : TableCall → RequestTable × Option ℤ
  | .insert src rtreq_seq => (t.insert (.ofIp src) (.ofIp src) rtreq_seq, none)
  | .getEntry dest b => ((t.getEntry (.ofIp dest)).2.write (t.getEntry (.ofIp dest)).1 b, none)
  | .get src => (t, some (t.get (.ofIp src)))

end RequestTable

def TableCall.addr : TableCall → ℕ
  | .insert src _ => src
  | .getEntry dest _ => dest
  | .get src => src

/-- What the table is for: the nodes that are known, in the order in which they became known and at
most `size` of them, and the number of the latest request of each, zero for those that are not. -/
structure Requests where
  known : List ℕ
  number : ℕ → ℤ

namespace Requests

def new : Requests := ⟨[], fun _ => 0⟩

/-- The node that is forgotten for the sake of `a`. -/
def evicted (size a : ℕ) (s : Requests) : Option ℕ :=
  if a ∈ s.known ∨ s.known.length < size then none else s.known.head?

def meet (size a : ℕ) (s : Requests) : Requests :=
  if a ∈ s.known then s
  else
    match s.evicted size a with
    | none => ⟨s.known ++ [a], s.number⟩
    | some old => ⟨s.known.tail ++ [a], Function.update s.number old 0⟩

def call (size : ℕ) (s : Requests) : TableCall → Requests
  | .insert src rtreq_seq =>
    let s' := s.meet size src
    { s' with number := Function.update s'.number src rtreq_seq }
  | .getEntry dest _ => s.meet size dest
  | .get _ => s

end Requests

namespace RequestTable

/-- The table beside what it is for. -/
def step (s : RequestTable × Requests) (c : TableCall) :
    Option ((RequestTable × Requests) × Option ℤ) :=
  some (((s.1.call c).1, s.2.call s.1.size c), (s.1.call c).2)

/-- Every node's number is the one it should be, and a call about one node changes the number of no
other but the one that is evicted. -/
structure Right (s : RequestTable × Requests) : Prop where
  get (a : ℕ) : s.1.get (.ofIp a) = s.2.number a
  others (c : TableCall) (a : ℕ) (hc : a ≠ c.addr)
    (ha : (∀ b, c ≠ .get b) → s.2.evicted s.1.size c.addr ≠ some a) :
    (s.1.call c).1.get (.ofIp a) = s.1.get (.ofIp a)

/-- The entry in a slot: of a known node with its number, or never used. -/
def Slot (number : ℕ → ℤ) (e : Entry) : Option ℕ → Prop
  | some a => e.net_id = .ofIp a ∧ (e.mac_id = .invalid_addr ∨ e.mac_id = .ofIp a) ∧
      e.req_num = number a
  | none => e.net_id.type = .none ∧ e.mac_id.type = .none

/-- The slot of the `k`th oldest entry. -/
def slot (t : RequestTable) (s : Requests) (k : ℕ) : ℕ :=
  (t.ptr + (t.size - s.known.length) + k) % t.size

structure Kept (t : RequestTable) (s : Requests) : Prop where
  pos : 0 < t.size
  ptr_lt : t.ptr < t.size
  length : s.known.length ≤ t.size
  nodup : s.known.Nodup
  slots : ∀ k < t.size, Slot s.number (t.table (t.slot s k)) s.known[k]?
  unknown : ∀ a ∉ s.known, s.number a = 0

variable {t : RequestTable} {s : Requests} {a : ℕ}

theorem kept_new {size : ℕ} (h : 0 < size) (raw : ℕ → Entry) : Kept (new size raw) .new where
  pos := h
  ptr_lt := h
  length := Nat.zero_le _
  nodup := List.nodup_nil
  slots _ _ := ⟨rfl, rfl⟩
  unknown _ _ := rfl

theorem Slot.matches_iff {number : ℕ → ℤ} {e : Entry} {o : Option ℕ} (h : Slot number e o) :
    Matches e (.ofIp a) (.ofIp a) ↔ o = some a := by
  cases o with
  | none =>
    obtain ⟨hnet, hmac⟩ := h
    have hne : ∀ i : ID, i.type = .none → i ≠ .ofIp a := fun i hi he => by simp [he, ID.ofIp] at hi
    simp [Matches, hne _ hnet, hne _ hmac]
  | some b =>
    obtain ⟨hnet, hmac | hmac, -⟩ := h <;>
      simp [Matches, hnet, hmac, ID.ofIp, ID.invalid_addr]

theorem Slot.update {number : ℕ → ℤ} {e : Entry} {o : Option ℕ} (h : Slot number e o)
    (ho : o ≠ some a) (r : ℤ) : Slot (Function.update number a r) e o := by
  cases o with
  | none => exact h
  | some b =>
    have hba : b ≠ a := fun he => ho (congrArg some he)
    exact ⟨h.1, h.2.1, by rw [h.2.2, Function.update_of_ne hba]⟩

theorem exists_slot (h : Kept t s) {i : ℕ} (hi : i < t.size) : ∃ k < t.size, t.slot s k = i := by
  refine ⟨(i + t.size - (t.ptr + (t.size - s.known.length)) % t.size) % t.size,
    Nat.mod_lt _ h.pos, ?_⟩
  have hlt := Nat.mod_lt (t.ptr + (t.size - s.known.length)) h.pos
  rw [slot, Nat.add_mod_mod, ← Nat.mod_add_mod,
    show (t.ptr + (t.size - s.known.length)) % t.size + (i + t.size -
      (t.ptr + (t.size - s.known.length)) % t.size) = i + t.size by omega,
    Nat.add_mod_right, Nat.mod_eq_of_lt hi]

theorem find_known (h : Kept t s) {k : ℕ} (hk : s.known[k]? = some a) :
    t.find (.ofIp a) (.ofIp a) = t.slot s k := by
  have hlt : k < s.known.length := (List.getElem?_eq_some_iff.mp hk).1
  have hkn : k < t.size := lt_of_lt_of_le hlt h.length
  rw [find]
  cases hf : (List.range t.size).find? fun c => Matches (t.table c) (.ofIp a) (.ofIp a) with
  | none =>
    have := List.find?_eq_none.mp hf (t.slot s k) (List.mem_range.mpr (Nat.mod_lt _ h.pos))
    rw [decide_eq_true_eq, (h.slots k hkn).matches_iff] at this
    exact absurd hk this
  | some c =>
    have hc : c < t.size := List.mem_range.mp (List.mem_of_find?_eq_some hf)
    obtain ⟨j, hj, rfl⟩ := exists_slot h hc
    have hm := List.find?_some hf
    rw [decide_eq_true_eq, (h.slots j hj).matches_iff] at hm
    rw [Option.getD_some, (List.getElem?_inj hlt h.nodup).mp (hk.trans hm.symm)]

theorem find_unknown (h : Kept t s) (ha : a ∉ s.known) :
    t.find (.ofIp a) (.ofIp a) = t.size := by
  rw [find, List.find?_eq_none.mpr, Option.getD_none]
  intro c hc
  obtain ⟨k, hk, rfl⟩ := exists_slot h (List.mem_range.mp hc)
  rw [decide_eq_true_eq, (h.slots k hk).matches_iff]
  exact fun hm => ha (List.mem_of_getElem? hm)

theorem Kept.get_eq (h : Kept t s) (a : ℕ) : t.get (.ofIp a) = s.number a := by
  by_cases ha : a ∈ s.known
  · obtain ⟨k, hk⟩ := List.getElem?_of_mem ha
    have hlt : k < t.size := lt_of_lt_of_le (List.getElem?_eq_some_iff.mp hk).1 h.length
    have hs := h.slots k hlt
    rw [hk] at hs
    rw [get, find_known h hk, if_neg (by rw [not_le]; exact Nat.mod_lt _ h.pos)]
    exact hs.2.2
  · rw [get, find_unknown h ha, if_pos le_rfl, h.unknown a ha]

/-- A change of one entry and of the number of its node. -/
theorem Kept.update (h : Kept t s) {k : ℕ} (hk : s.known[k]? = some a) {e : Entry} {r : ℤ}
    (he : Slot (Function.update s.number a r) e (some a)) :
    Kept { t with table := Function.update t.table (t.slot s k) e }
      { s with number := Function.update s.number a r } where
  pos := h.pos
  ptr_lt := h.ptr_lt
  length := h.length
  nodup := h.nodup
  slots j hj := by
    have hlt : k < s.known.length := (List.getElem?_eq_some_iff.mp hk).1
    have hkn : k < t.size := lt_of_lt_of_le hlt h.length
    by_cases hjk : j = k
    · subst hjk
      rw [hk]
      simpa [slot] using he
    · have hne : t.slot s j ≠ t.slot s k := fun heq => hjk (slot_inj hj hkn heq)
      change Slot _ (Function.update t.table (t.slot s k) e (t.slot s j)) _
      rw [Function.update_of_ne hne]
      exact (h.slots j hj).update
        (fun he => hjk ((List.getElem?_inj hlt h.nodup).mp (hk.trans he.symm)).symm) r
  unknown b hb := by
    have hba : b ≠ a := by
      rintro rfl
      exact hb (List.mem_of_getElem? hk)
    change Function.update s.number a r b = 0
    rw [Function.update_of_ne hba, h.unknown b hb]

theorem slot_length (h : Kept t s) : t.slot s s.known.length = t.ptr := by
  have := h.length
  rw [slot, show t.ptr + (t.size - s.known.length) + s.known.length = t.ptr + t.size by omega,
    Nat.add_mod_right, Nat.mod_eq_of_lt h.ptr_lt]

theorem create_ptr (mac : ID) (r : ℤ) (number : ℕ → ℤ)
    (hmac : mac = .invalid_addr ∨ mac = .ofIp a) : Slot (Function.update number a r)
      ((t.create (.ofIp a) mac r).table t.ptr) (some a) := by
  simp [RequestTable.create, Slot, hmac]

theorem create_other (mac : ID) (r : ℤ) {i : ℕ} (hi : i ≠ t.ptr) :
    (t.create (.ofIp a) mac r).table i = t.table i := Function.update_of_ne hi _ _

/-- A new entry while there are free ones. -/
theorem Kept.create_room (h : Kept t s) (ha : a ∉ s.known) (hlen : s.known.length < t.size)
    {mac : ID} (hmac : mac = .invalid_addr ∨ mac = .ofIp a) (r : ℤ) :
    Kept (t.create (.ofIp a) mac r) ⟨s.known ++ [a], Function.update s.number a r⟩ where
  pos := h.pos
  ptr_lt := Nat.mod_lt _ h.pos
  length := by
    rw [List.length_append]
    exact hlen
  nodup := List.nodup_append.mpr ⟨h.nodup, List.nodup_singleton a, fun b hb c hc he =>
    ha (List.mem_singleton.mp hc ▸ he ▸ hb)⟩
  slots k hk := by
    have hslot : (t.create (.ofIp a) mac r).slot
        ⟨s.known ++ [a], Function.update s.number a r⟩ k = t.slot s k := by
      simp only [slot, RequestTable.create, List.length_append, List.length_singleton]
      rw [Nat.add_assoc, Nat.mod_add_mod]
      congr 1
      omega
    rw [hslot]
    by_cases hkl : k = s.known.length
    · rw [hkl, slot_length h]
      simpa using create_ptr mac r s.number hmac
    · have hne : t.slot s k ≠ t.ptr := by
        rw [← slot_length h]
        exact fun he => hkl (slot_inj hk hlen he)
      have hget : (s.known ++ [a])[k]? = s.known[k]? := by
        rcases Nat.lt_or_gt_of_ne hkl with hlt | hgt
        · exact List.getElem?_append_left hlt
        · rw [List.getElem?_eq_none (by simp; omega), List.getElem?_eq_none (by omega)]
      change Slot _ _ (s.known ++ [a])[k]?
      rw [create_other mac r hne, hget]
      exact (h.slots k hk).update (fun he => ha (List.mem_of_getElem? he)) r
  unknown b hb := by
    have hb' : b ∉ s.known ∧ b ≠ a := by simpa using hb
    change Function.update s.number a r b = 0
    rw [Function.update_of_ne hb'.2, h.unknown b hb'.1]

/-- A new entry in place of the oldest one. -/
theorem Kept.create_full (h : Kept t s) (ha : a ∉ s.known) {old : ℕ} {rest : List ℕ}
    (hknown : s.known = old :: rest) (hfull : rest.length + 1 = t.size)
    {mac : ID} (hmac : mac = .invalid_addr ∨ mac = .ofIp a) (r : ℤ) :
    Kept (t.create (.ofIp a) mac r)
      ⟨rest ++ [a], Function.update (Function.update s.number old 0) a r⟩ where
  pos := h.pos
  ptr_lt := Nat.mod_lt _ h.pos
  length := by
    rw [List.length_append]
    exact hfull.le
  nodup := by
    have hn := h.nodup
    rw [hknown, List.nodup_cons] at hn
    exact List.nodup_append.mpr ⟨hn.2, List.nodup_singleton a, fun b hb c hc he =>
      ha (by rw [hknown, ← List.mem_singleton.mp hc, ← he]; exact List.mem_cons_of_mem _ hb)⟩
  slots k hk := by
    have hk' : k < t.size := hk
    have hslot : (t.create (.ofIp a) mac r).slot
        ⟨rest ++ [a], Function.update (Function.update s.number old 0) a r⟩ k =
        t.slot s (k + 1) := by
      have hlen : (rest ++ [a]).length = t.size := by
        rw [List.length_append]
        exact hfull
      simp only [slot, RequestTable.create, hlen, hknown, List.length_cons, hfull, Nat.sub_self,
        Nat.add_zero, Nat.mod_add_mod]
      congr 1
      omega
    rw [hslot]
    change Slot _ _ (rest ++ [a])[k]?
    by_cases hkl : k = rest.length
    · rw [hkl, show rest.length + 1 = s.known.length by rw [hknown]; rfl, slot_length h]
      simpa using create_ptr mac r (Function.update s.number old 0) hmac
    · have hne : t.slot s (k + 1) ≠ t.ptr := by
        rw [← slot_length h]
        intro he
        have := slot_inj (n := t.size) (show k + 1 < t.size by omega)
          (j := 0) h.pos (he.trans (by simp [slot, hknown, hfull]))
        omega
      have hget : (rest ++ [a])[k]? = s.known[k + 1]? := by
        rw [List.getElem?_append_left (by omega), hknown, List.getElem?_cons_succ]
      have hold : s.known[k + 1]? ≠ some old := fun he => by
        have hn := h.nodup
        rw [hknown, List.nodup_cons] at hn
        rw [hknown, List.getElem?_cons_succ] at he
        exact hn.1 (List.mem_of_getElem? he)
      rw [create_other mac r hne, hget]
      exact ((h.slots (k + 1) (by omega)).update hold 0).update
        (fun he => ha (List.mem_of_getElem? he)) r
  unknown b hb := by
    have hb' : b ∉ rest ∧ b ≠ a := by simpa using hb
    change Function.update (Function.update s.number old 0) a r b = 0
    rw [Function.update_of_ne hb'.2]
    by_cases hbo : b = old
    · rw [hbo, Function.update_self]
    · rw [Function.update_of_ne hbo, h.unknown b (by simp [hknown, hbo, hb'.1])]

theorem Kept.create (h : Kept t s) (ha : a ∉ s.known) {mac : ID}
    (hmac : mac = .invalid_addr ∨ mac = .ofIp a) (r : ℤ) :
    Kept (t.create (.ofIp a) mac r)
      { s.meet t.size a with number := Function.update (s.meet t.size a).number a r } := by
  by_cases hlen : s.known.length < t.size
  · simpa [Requests.meet, Requests.evicted, ha, hlen] using h.create_room ha hlen hmac r
  · obtain ⟨old, rest, hknown⟩ : ∃ old rest, s.known = old :: rest := by
      cases hk : s.known with
      | nil => simp [hk, h.pos] at hlen
      | cons old rest => exact ⟨old, rest, rfl⟩
    have hfull : rest.length + 1 = t.size := by
      have := h.length
      rw [hknown, List.length_cons] at this hlen
      omega
    have := h.create_full ha hknown hfull hmac r
    rw [hknown] at ha
    simpa [Requests.meet, Requests.evicted, hknown, ha, hfull] using this

theorem Kept.insert (h : Kept t s) (a : ℕ) (r : ℤ) :
    Kept (t.insert (.ofIp a) (.ofIp a) r)
      { s.meet t.size a with number := Function.update (s.meet t.size a).number a r } := by
  by_cases ha : a ∈ s.known
  · obtain ⟨k, hk⟩ := List.getElem?_of_mem ha
    have hlt : k < t.size := lt_of_lt_of_le (List.getElem?_eq_some_iff.mp hk).1 h.length
    have hs := h.slots k hlt
    rw [hk] at hs
    have hfind : t.slot s k < t.size := Nat.mod_lt _ h.pos
    rw [Requests.meet, if_pos ha, RequestTable.insert, find_known h hk, if_pos hfind]
    refine h.update hk ⟨hs.1, Or.inr ?_, (Function.update_self a r s.number).symm⟩
    rcases hs.2.1 with hm | hm
    · exact if_pos hm
    · rw [hm]
      exact if_neg (by simp [ID.ofIp, ID.invalid_addr])
  · rw [RequestTable.insert, find_unknown h ha, if_neg (lt_irrefl _)]
    exact h.create ha (Or.inr rfl) r

theorem Kept.getEntry (h : Kept t s) (a : ℕ) :
    Kept (t.getEntry (.ofIp a)).2 (s.meet t.size a) := by
  by_cases ha : a ∈ s.known
  · obtain ⟨k, hk⟩ := List.getElem?_of_mem ha
    have hfind : ¬ t.slot s k ≥ t.size := by
      rw [not_le]
      exact Nat.mod_lt _ h.pos
    rwa [Requests.meet, if_pos ha, RequestTable.getEntry, find_known h hk, if_neg hfind]
  · have hzero : (s.meet t.size a).number a = 0 := by
      have := h.unknown a ha
      rw [Requests.meet, if_neg ha]
      cases s.evicted t.size a with
      | none => exact this
      | some old =>
        change Function.update s.number old 0 a = 0
        rw [Function.update_apply, this, ite_self]
    have := h.create ha (Or.inl rfl) 0
    rw [← hzero, Function.update_eq_self, hzero] at this
    rw [RequestTable.getEntry, find_unknown h ha, if_pos le_rfl]
    exact this

theorem Kept.write (h : Kept t s) (e : ℕ) (b : Backoff) : Kept (t.write e b) s where
  pos := h.pos
  ptr_lt := h.ptr_lt
  length := h.length
  nodup := h.nodup
  slots k hk := by
    have hs := h.slots k hk
    change Slot _ (Function.update t.table e _ (t.slot s k)) _
    by_cases he : t.slot s k = e
    · subst he
      rw [Function.update_self]
      cases hb : s.known[k]? <;> rw [hb] at hs <;> exact hs
    · rw [Function.update_of_ne he]
      exact hs
  unknown := h.unknown

theorem Kept.call (h : Kept t s) (c : TableCall) : Kept (t.call c).1 (s.call t.size c) := by
  cases c with
  | insert src rtreq_seq => exact h.insert src rtreq_seq
  | getEntry dest b => exact (h.getEntry dest).write _ b
  | get src => exact h

theorem number_meet (size : ℕ) {b : ℕ} (hb : s.evicted size a ≠ some b) :
    (s.meet size a).number b = s.number b := by
  rw [Requests.meet]
  split_ifs
  · rfl
  · cases he : s.evicted size a with
    | none => rfl
    | some old => exact Function.update_of_ne (fun h => hb (by rw [he, h])) _ _

theorem number_call (size : ℕ) {c : TableCall} {b : ℕ} (hc : b ≠ c.addr)
    (hb : (∀ a, c ≠ .get a) → s.evicted size c.addr ≠ some b) :
    (s.call size c).number b = s.number b := by
  cases c with
  | insert src rtreq_seq =>
    have hb' := number_meet size (hb (by simp))
    change Function.update (s.meet size src).number src rtreq_seq b = _
    rwa [Function.update_of_ne (show b ≠ src from hc)]
  | getEntry dest bo => exact number_meet size (hb (by simp))
  | get src => rfl

theorem Kept.right (h : Kept t s) : Right (t, s) where
  get := h.get_eq
  others c a hc ha := by
    rw [(h.call c).get_eq, number_call t.size hc ha, h.get_eq]

/-- In every run of the agent's calls the table answers as it should. -/
theorem always_right {size : ℕ} (hsize : 0 < size) (raw : ℕ → Entry) (calls : List TableCall) :
    Machine.Always step Right (new size raw, .new) calls :=
  (@Machine.always_iff _ _ _ step (fun _ _ => True) (fun s => Kept s.1 s.2) Right
    (fun _ h => h.right) (fun _ c h _ => ⟨_, _, rfl, h.call c⟩)
    (fun _ _ _ _ _ hn => absurd trivial hn) (new size raw, .new) (kept_new hsize raw) calls).mpr
    (Machine.admits_true _ _ _)

theorem always_right_two : 0 < 2 ∧ Machine.Always step Right
    (new 2 fun _ => ⟨⟨0, .none⟩, ⟨0, .none⟩, 0, 0, 0, 0, .limit0⟩, .new)
    [.insert 1 5, .getEntry 2 ⟨0, 1, 0, .unlimit⟩, .get 1, .insert 3 1, .get 1] :=
  ⟨by decide, always_right (by decide) _ _⟩

end RequestTable

end Ns2
