import Mathlib

/-! The unreachable destinations of the error packets: what `handle_link_failure` and `recvError`
write into the arrays of the packet. -/

namespace Ns2

/-- `RTF_DOWN`, `RTF_UP` and `RTF_IN_REPAIR`. -/
inductive AodvRtFlags
  | down
  | up
  | in_repair
  deriving DecidableEq

structure AodvRtEntry where
  rt_dst : ℤ
  rt_seqno : UInt32
  rt_hops : ℕ
  rt_last_hop_count : ℕ
  rt_nexthop : ℤ
  rt_pclist : List ℤ
  rt_expire : ℚ
  rt_flags : AodvRtFlags
  deriving DecidableEq

namespace Aodv

def INFINITY2 : ℕ := 0xff

def AODV_MAX_ERRORS : ℕ := 100

/-- How a handler ends early: an assertion fails, or an index is outside an array. -/
inductive Failure
  | aborted
  | outside
  deriving DecidableEq

structure HdrAodvError where
  DestCount : UInt8
  unreachable_dst : Fin AODV_MAX_ERRORS → ℤ
  unreachable_dst_seqno : Fin AODV_MAX_ERRORS → UInt32

/-- The packet being filled, with the destinations written so far, in order, which no step
reads. -/
structure Filling where
  re : HdrAodvError
  written : List (ℤ × UInt32)

/-- A fresh packet. -/
def Filling.alloc : Filling := ⟨⟨0, fun _ => 0, fun _ => 0⟩, []⟩

/-- The two writes at index `DestCount`, and `DestCount += 1`. -/
def Filling.write (f : Filling) (dst : ℤ) (seqno : UInt32) : Except Failure Filling :=
  if h : f.re.DestCount.toNat < AODV_MAX_ERRORS then
    .ok {
      re := {
        DestCount := f.re.DestCount + 1
        unreachable_dst := Function.update f.re.unreachable_dst ⟨_, h⟩ dst
        unreachable_dst_seqno := Function.update f.re.unreachable_dst_seqno ⟨_, h⟩ seqno }
      written := f.written ++ [(dst, seqno)] }
  else .error .outside

end Aodv

namespace AodvRtEntry

open Aodv

/-- What the handlers assert of a route that they take down. -/
def Sound (rt : AodvRtEntry) : Prop := rt.rt_flags = .up ∧ rt.rt_seqno % 2 = 0

instance (rt : AodvRtEntry) : Decidable rt.Sound := inferInstanceAs (Decidable (_ ∧ _))

/-- The test of `handle_link_failure`. -/
def Broken (id : ℤ) (rt : AodvRtEntry) : Prop := rt.rt_hops ≠ INFINITY2 ∧ rt.rt_nexthop = id

instance (id : ℤ) (rt : AodvRtEntry) : Decidable (rt.Broken id) :=
  inferInstanceAs (Decidable (_ ∧ _))

/-- The removal of the first precursor `id`. -/
def pc_delete (rt : AodvRtEntry) (id : ℤ) : AodvRtEntry :=
  { rt with rt_pclist := rt.rt_pclist.erase id }

def rt_down (rt : AodvRtEntry) : AodvRtEntry :=
  if rt.rt_flags = .down then rt
  else { rt with
    rt_last_hop_count := rt.rt_hops
    rt_hops := INFINITY2
    rt_flags := .down
    rt_nexthop := 0
    rt_expire := 0 }

end AodvRtEntry

/-- The routing table in the order of its list, the packets of the interface queue with their next
hops, and the packets given to `sendError`. -/
structure Aodv where
  rtable : List AodvRtEntry
  ifqueue : List (ℤ × ℕ)
  sent : List Aodv.HdrAodvError

namespace Aodv

/-- The body of the loop of `handle_link_failure`. -/
def failEntry (id : ℤ) (f : Filling) (rt : AodvRtEntry) :
    Except Failure (Filling × AodvRtEntry) :=
  if rt.Broken id then
    if rt.Sound then
      let rt := { rt with rt_seqno := rt.rt_seqno + 1 }
      (f.write rt.rt_dst rt.rt_seqno).map fun f => (f, rt.rt_down.pc_delete id)
    else .error .aborted
  else .ok (f, rt.pc_delete id)

def failEntries (id : ℤ) : Filling → List AodvRtEntry →
    Except Failure (Filling × List AodvRtEntry)
  | f, [] => .ok (f, [])
  | f, rt :: rest =>
    (failEntry id f rt).bind fun p => (failEntries id p.1 rest).map fun q => (q.1, p.2 :: q.2)

/-- The packet is sent if it names a destination, and freed otherwise. -/
def sendError (s : Aodv) (f : Filling) : Aodv :=
  if 0 < f.re.DestCount then { s with sent := s.sent ++ [f.re] } else s

def handle_link_failure (s : Aodv) (id : ℤ) : Except Failure (Filling × Aodv) :=
  (failEntries id .alloc s.rtable).map fun p =>
    (p.1, { s with rtable := p.2 }.sendError p.1)

def rt_lookup (s : Aodv) (id : ℤ) : Option AodvRtEntry :=
  s.rtable.find? fun rt => rt.rt_dst = id

/-- The table with `rt` for the first entry of its destination. -/
def setEntry (rt : AodvRtEntry) : List AodvRtEntry → List AodvRtEntry
  | [] => []
  | a :: rest => if a.rt_dst = rt.rt_dst then rt :: rest else a :: setEntry rt rest

/-- The test of `recvError`. -/
def Unreachable (saddr : ℤ) (seqno : UInt32) (rt : AodvRtEntry) : Prop :=
  rt.Broken saddr ∧ rt.rt_seqno ≤ seqno

instance (saddr : ℤ) (seqno : UInt32) (rt : AodvRtEntry) : Decidable (Unreachable saddr seqno rt) :=
  inferInstanceAs (Decidable (_ ∧ _))

/-- The body of the loop of `recvError`, with the packets for the sender filtered out of the
interface queue. -/
def recvDest (saddr : ℤ) (re : HdrAodvError) (p : Filling × Aodv) (i : ℕ) :
    Except Failure (Filling × Aodv) :=
  if h : i < AODV_MAX_ERRORS then
    let seqno := re.unreachable_dst_seqno ⟨i, h⟩
    match p.2.rt_lookup (re.unreachable_dst ⟨i, h⟩) with
    | none => .ok p
    | some rt =>
      if Unreachable saddr seqno rt then
        if rt.Sound then
          let rt := { rt with rt_seqno := seqno }.rt_down
          let s := { p.2 with ifqueue := p.2.ifqueue.filter fun q => q.1 ≠ saddr }
          if rt.rt_pclist = [] then .ok (p.1, { s with rtable := setEntry rt s.rtable })
          else
            (p.1.write rt.rt_dst rt.rt_seqno).map fun f =>
              (f, { s with rtable := setEntry { rt with rt_pclist := [] } s.rtable })
        else .error .aborted
      else .ok p
  else .error .outside

def recvDests (saddr : ℤ) (re : HdrAodvError) : Filling × Aodv → List ℕ →
    Except Failure (Filling × Aodv)
  | p, [] => .ok p
  | p, i :: is => (recvDest saddr re p i).bind fun p => recvDests saddr re p is

def recvError (s : Aodv) (saddr : ℤ) (re : HdrAodvError) : Except Failure (Filling × Aodv) :=
  (recvDests saddr re (.alloc, s) (List.range' 0 re.DestCount.toNat)).map fun p =>
    (p.1, p.2.sendError p.1)

inductive Event
  | linkFailure (id : ℤ)
  | error (saddr : ℤ) (re : HdrAodvError)

def handle (s : Aodv) : Event → Except Failure (Filling × Aodv)
  | .linkFailure id => s.handle_link_failure id
  | .error saddr re => s.recvError saddr re



/-- `DestCount` is the number of destinations written, and the arrays hold them in order. -/
structure Filling.Counts (f : Filling) : Prop where
  count : f.re.DestCount.toNat = f.written.length
  bound : f.written.length ≤ AODV_MAX_ERRORS
  cells : ∀ (k : Fin AODV_MAX_ERRORS) (w : ℤ × UInt32), f.written[k.val]? = some w →
    f.re.unreachable_dst k = w.1 ∧ f.re.unreachable_dst_seqno k = w.2

theorem Filling.Counts.write {f : Filling} (h : f.Counts) (hlt : f.written.length < AODV_MAX_ERRORS)
    (dst : ℤ) (seqno : UInt32) :
    ∃ f', f.write dst seqno = .ok f' ∧ f'.Counts ∧ f'.written = f.written ++ [(dst, seqno)] := by
  have hcount : f.re.DestCount.toNat < AODV_MAX_ERRORS := by
    rw [h.count]
    exact hlt
  have hmax : AODV_MAX_ERRORS = 100 := rfl
  have hnext : (f.re.DestCount + 1).toNat = f.written.length + 1 := by
    rw [UInt8.toNat_add, h.count]
    exact Nat.mod_eq_of_lt (by simp; omega)
  refine ⟨_, dif_pos hcount, ⟨?_, ?_, fun k w hw => ?_⟩, rfl⟩
  · exact hnext.trans (by simp)
  · rw [List.length_append, List.length_singleton]
    exact hlt
  · by_cases hk : k.val = f.written.length
    · have hke : k = ⟨f.re.DestCount.toNat, hcount⟩ := Fin.ext (hk.trans h.count.symm)
      rw [hk, List.getElem?_concat_length] at hw
      obtain rfl := Option.some.inj hw
      simp [hke]
    · have hke : k ≠ ⟨f.re.DestCount.toNat, hcount⟩ := by
        rintro rfl
        exact hk h.count
      have hlen := (List.getElem?_eq_some_iff.mp hw).1
      rw [List.length_append, List.length_singleton] at hlen
      rw [List.getElem?_append_left (by omega)] at hw
      simp only [Function.update_of_ne hke]
      exact h.cells k w hw

/-- The entries that the loop takes down: those ahead of the first that fails an assertion. -/
def takenDown (id : ℤ) (l : List AodvRtEntry) : List AodvRtEntry :=
  (l.takeWhile fun rt => rt.Broken id → rt.Sound).filter fun rt => rt.Broken id

/-- The route to `dst`, which the message takes down, fails an assertion. -/
def Fails (s : Aodv) (saddr dst : ℤ) (seqno : UInt32) : Prop :=
  ∃ rt, s.rt_lookup dst = some rt ∧ Unreachable saddr seqno rt ∧ ¬ rt.Sound

/-- Each route is as it was, or it was sound and has been taken down. -/
def Treated (s₀ s : Aodv) : Prop :=
  ∀ d, s.rt_lookup d = s₀.rt_lookup d ∨
    ∃ rt₀ rt, s₀.rt_lookup d = some rt₀ ∧ rt₀.Sound ∧ s.rt_lookup d = some rt ∧
      rt.rt_hops = INFINITY2

theorem find_setEntry {rt : AodvRtEntry} {d : ℤ} {l : List AodvRtEntry}
    (h : ∃ a ∈ l, a.rt_dst = rt.rt_dst) :
    (setEntry rt l).find? (fun a => a.rt_dst = d) =
      if d = rt.rt_dst then some rt else l.find? fun a => a.rt_dst = d := by
  induction l with
  | nil => simp at h
  | cons a rest ih =>
    rw [setEntry]
    by_cases ha : a.rt_dst = rt.rt_dst
    · rw [if_pos ha]
      by_cases hd : d = rt.rt_dst
      · simp [hd]
      · simp [hd, ha, Ne.symm hd]
    · have hrest : ∃ b ∈ rest, b.rt_dst = rt.rt_dst := by
        obtain ⟨b, hb, he⟩ := h
        rcases List.mem_cons.mp hb with rfl | hb
        · exact absurd he ha
        · exact ⟨b, hb, he⟩
      rw [if_neg ha, List.find?_cons, List.find?_cons, ih hrest]
      by_cases hd : d = rt.rt_dst
      · subst hd
        simp [ha]
      · rw [if_neg hd, if_neg hd]

/-- Taking down a sound route treats it. -/
theorem Treated.set {s₀ s s' : Aodv} (h : Treated s₀ s) {rt : AodvRtEntry} (rt' : AodvRtEntry)
    {dst saddr : ℤ} {seqno : UInt32} (hrt : s.rt_lookup dst = some rt)
    (hu : Unreachable saddr seqno rt) (hs : rt.Sound) (hdst : rt'.rt_dst = dst)
    (hhops : rt'.rt_hops = INFINITY2)
    (hs' : s'.rtable = setEntry rt' s.rtable) : Treated s₀ s' := by
  have hfind : ∀ d, s'.rt_lookup d = if d = dst then some rt' else s.rt_lookup d := by
    intro d
    have hmem : ∃ a ∈ s.rtable, a.rt_dst = rt'.rt_dst :=
      ⟨rt, List.mem_of_find?_eq_some hrt, by simpa [hdst] using List.find?_some hrt⟩
    rw [rt_lookup, hs', find_setEntry hmem, hdst]
    rfl
  intro d
  rw [hfind]
  by_cases hd : d = dst
  · subst hd
    rw [if_pos rfl]
    rcases h d with hsame | ⟨-, a, -, -, hrt', hinf⟩
    · exact .inr ⟨rt, rt', hsame ▸ hrt, hs, rfl, hhops⟩
    · obtain rfl := Option.some.inj (hrt.symm.trans hrt')
      exact absurd hinf hu.1.1
  · rw [if_neg hd]
    exact h d

/-- No more destinations than the arrays hold: of the routes over a lost neighbour that are taken
down, or in the message. -/
def Fits (s : Aodv) : Event → Prop
  | .linkFailure id => (takenDown id s.rtable).length ≤ AODV_MAX_ERRORS
  | .error saddr re => re.DestCount.toNat ≤ AODV_MAX_ERRORS ∨
      ∃ i : Fin AODV_MAX_ERRORS, i.val < re.DestCount.toNat ∧
        s.Fails saddr (re.unreachable_dst i) (re.unreachable_dst_seqno i)

end Aodv

end Ns2
