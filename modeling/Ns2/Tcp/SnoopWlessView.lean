import Ns2.Lib.RingParts
import Ns2.Tcp.SnoopWless

/-! The entries of the ring as lists, and what a packet and an acknowledgement make of them. -/

namespace Ns2

namespace SnoopWl

open RingWindow OptionRing

theorem and_wlempty_of_or (f : BitVec 32) :
    (f ||| SNOOP_WLALIVE) &&& SNOOP_WLEMPTY = f &&& SNOOP_WLEMPTY := by
  rw [BitVec.and_or_distrib_right, show SNOOP_WLALIVE &&& SNOOP_WLEMPTY = 0#32 by decide,
    BitVec.or_zero]

theorem or_and_wlempty (f : BitVec 32) : ((f ||| SNOOP_WLEMPTY) &&& SNOOP_WLEMPTY != 0) = true := by
  rw [BitVec.and_or_distrib_right, BitVec.and_self, bne_iff_ne]
  intro h
  have hbit := congrArg (·.getLsbD 7) h
  simp [SNOOP_WLEMPTY] at hbit

theorem clear_and_wlempty (f : BitVec 32) :
    (f &&& ~~~SNOOP_WLEMPTY &&& SNOOP_WLEMPTY != 0) = false := by
  rw [BitVec.and_assoc, show ~~~SNOOP_WLEMPTY &&& SNOOP_WLEMPTY = 0#32 by decide, BitVec.and_zero]
  rfl

/-- The entries from the tail up to the head, and the others. -/
structure View where
  empty : Bool
  lastSeen : ℤ
  lastAck : ℤ
  used : List HdrSeq
  free : List HdrSeq

structure Views (s : SnoopWl) (v : View) : Prop where
  parts : Parts SNOOP_WLSEQS s.wl_buftail_ s.wl_bufhead_ s.wlseqs_ v.used v.free
  empty : s.is SNOOP_WLEMPTY = v.empty
  lastSeen : s.wl_lastSeen_ = v.lastSeen
  lastAck : s.wl_lastAck_ = v.lastAck
  flag : v.used = [] → v.empty = true

/-- What a packet does to the view, by the branches of `keep`. -/
inductive View.Keeps (seq : ℤ) : View → View → Prop
  | first {seen ack : ℤ} {f : HdrSeq} {used free : List HdrSeq} (hack : ack ≤ seq) :
    Keeps seq ⟨true, seen, ack, used, f :: free⟩ ⟨false, seq, ack, [⟨seq, 1⟩], free ++ used⟩
  | extend {empty : Bool} {seen ack : ℤ} {r : HdrSeq} {used free : List HdrSeq}
    (hfirst : empty = true → seq < ack) (hseen : seen ≤ seq) (hend : r.seq + r.num = seq) :
    Keeps seq ⟨empty, seen, ack, used ++ [r], free⟩
      ⟨empty, seq, ack, used ++ [⟨r.seq, r.num + 1⟩], free⟩
  | extendFree {seen ack : ℤ} {r : HdrSeq} {free : List HdrSeq} (hack : seq < ack)
    (hseen : seen ≤ seq) (hend : r.seq + r.num = seq) :
    Keeps seq ⟨true, seen, ack, [], free ++ [r]⟩ ⟨true, seq, ack, [], free ++ [⟨r.seq, r.num + 1⟩]⟩
  | begin {empty : Bool} {seen ack : ℤ} {f : HdrSeq} {used free : List HdrSeq}
    (hfirst : empty = true → seq < ack) (hseen : seen ≤ seq)
    (hend : ∀ r ∈ used.getLast?, r.seq + r.num ≠ seq) :
    Keeps seq ⟨empty, seen, ack, used, f :: free⟩
      ⟨empty, seq, ack, used ++ [⟨seq, f.num + 1⟩], free⟩
  | front {empty : Bool} {seen ack : ℤ} {r : HdrSeq} {used free : List HdrSeq}
    (hfirst : empty = true → seq < ack) (hseen : seq < seen) (hend : seq = r.seq - 1) :
    Keeps seq ⟨empty, seen, ack, r :: used, free⟩ ⟨empty, seen, ack, ⟨seq, r.num + 1⟩ :: used, free⟩
  | frontFree {seen ack : ℤ} {f : HdrSeq} {free : List HdrSeq} (hack : seq < ack)
    (hseen : seq < seen) (hend : seq = f.seq - 1) :
    Keeps seq ⟨true, seen, ack, [], f :: free⟩ ⟨true, seen, ack, [], ⟨seq, f.num + 1⟩ :: free⟩

/-- What an acknowledgement leaves of the ranges. -/
def dropAcked (ack : ℤ) : List HdrSeq → List HdrSeq
  | [] => []
  | t :: l =>
    if t.seq + t.num - 1 ≤ ack then dropAcked ack l
    else if ack < t.seq then t :: l
    else ⟨ack + 1, t.num - (ack - t.seq + 1)⟩ :: l

theorem ackLoop_spec (ack : ℤ) {head i f : ℕ} {wlseqs : ℕ → HdrSeq} {l free : List HdrSeq}
    (h : Parts SNOOP_WLSEQS i head wlseqs l free) (hf : l.length < f) :
    ∃ i' wlseqs' k, ackLoop head ack f i wlseqs = some (i', wlseqs') ∧
      Parts SNOOP_WLSEQS i' head wlseqs' (dropAcked ack l) (free ++ List.replicate k ⟨0, 0⟩) := by
  induction l generalizing i f wlseqs free with
  | nil =>
    obtain ⟨f, rfl⟩ := Nat.exists_eq_succ_of_ne_zero (Nat.ne_of_gt hf)
    refine ⟨i, wlseqs, 0, if_pos (h.empty_iff.mpr rfl).symm, ?_⟩
    rwa [List.replicate_zero, List.append_nil]
  | cons t l ih =>
    obtain ⟨f, rfl⟩ := Nat.exists_eq_succ_of_ne_zero (Nat.ne_of_gt (Nat.zero_lt_of_lt hf))
    have hne : i ≠ head := fun he => by simpa using h.empty_iff.mp he.symm
    have ht : wlseqs i = t := h.first
    rw [List.length_cons] at hf
    simp only [ackLoop, if_neg hne, ht, dropAcked]
    by_cases hend : t.seq + t.num - 1 ≤ ack
    · simp only [if_pos hend]
      obtain ⟨i', wlseqs', k, hloop, hparts⟩ := ih (f := f) (h.pop ⟨0, 0⟩) (by omega)
      refine ⟨i', wlseqs', k + 1, hloop, ?_⟩
      rwa [List.append_assoc, List.singleton_append] at hparts
    · by_cases hseq : ack < t.seq
      · simp only [if_neg hend, if_pos hseq]
        refine ⟨i, wlseqs, 0, rfl, ?_⟩
        rwa [List.replicate_zero, List.append_nil]
      · simp only [if_neg hend, if_neg hseq, if_pos (show ack < t.seq + t.num - 1 by omega)]
        refine ⟨i, _, 0, rfl, ?_⟩
        rw [List.replicate_zero, List.append_nil]
        exact h.set_first _

/-- The ring is empty from the acknowledgement on that leaves nothing of it. -/
def View.acked (v : View) (ack : ℤ) (k : ℕ) : View where
  empty := v.empty || (dropAcked ack v.used).isEmpty
  lastSeen := v.lastSeen
  lastAck := ack
  used := dropAcked ack v.used
  free := v.free ++ List.replicate k ⟨0, 0⟩

def View.reset (v : View) : View :=
  { v with empty := true, used := [], free := List.replicate SNOOP_WLSEQS ⟨0, 0⟩ }

def View.start (v : View) (restarts : Bool) : View := if restarts then v.reset else v

namespace Views

variable {s : SnoopWl} {v : View} {seq ack : ℤ}

theorem keep_of_ignored (hi : s.Ignored seq) : s.keep seq = s := by
  obtain ⟨hfirst, hseen, hend⟩ := hi
  rw [SnoopWl.keep, if_neg hfirst, if_neg (not_le.mpr hseen), if_neg hend]

theorem keep (h : s.Views v) (hfills : ¬ (s.Opens seq ∧ wl_next s.wl_bufhead_ = s.wl_buftail_))
    (hi : ¬ s.Ignored seq) : ∃ v', (s.keep seq).Views v' ∧ v.Keeps seq v' := by
  obtain ⟨empty, seen, ack, used, free⟩ := v
  obtain ⟨hparts, hempty, hlast, hack, hflag⟩ := h
  dsimp only at hparts hempty hlast hack hflag
  by_cases hfirst : s.First seq
  · -- the ring starts anew, whatever it holds
    obtain ⟨f, free, rfl⟩ := List.exists_cons_of_ne_nil hparts.room
    have he : empty = true := hempty ▸ hfirst.1
    subst he
    rw [SnoopWl.keep, if_pos hfirst]
    refine ⟨_, ?_, .first (hack ▸ hfirst.2)⟩
    exact ⟨hparts.single (by decide) _, clear_and_wlempty _, rfl, hack, fun h => by cases h⟩
  · have hlt : empty = true → seq < ack := fun he => by
      rw [First, hempty, he, hack] at hfirst
      simpa using hfirst
    rw [SnoopWl.keep, if_neg hfirst]
    by_cases hseen : seq ≥ s.wl_lastSeen_
    · rw [if_pos hseen]
      have hge : seen ≤ seq := hlast ▸ hseen
      by_cases hend : s.last.seq + s.last.num = seq
      · rw [if_pos hend]
        cases used using List.reverseRecOn with
        | nil =>
          have he := hflag rfl
          subst he
          obtain ⟨free, r, rfl⟩ := (List.eq_nil_or_concat' free).resolve_left hparts.room
          have hset := hparts.set_last_free ⟨r.seq, r.num + 1⟩
          have hr : s.last = r := hparts.last_free
          rw [← hr] at hset
          refine ⟨_, ?_, .extendFree (hlt rfl) hge (hr ▸ hend)⟩
          exact ⟨hr ▸ hset, hempty, rfl, hack, hflag⟩
        | append_singleton used r =>
          have hr : s.last = r := hparts.last
          refine ⟨_, ?_, .extend hlt hge (hr ▸ hend)⟩
          exact ⟨hr ▸ hparts.set_last _, hempty, rfl, hack, fun h => by simp at h⟩
      · rw [if_neg hend]
        obtain ⟨f, free, rfl⟩ := List.exists_cons_of_ne_nil hparts.room
        have hf : s.wlseqs_ s.wl_bufhead_ = f := hparts.next_free
        have hroom : free ≠ [] := by
          rintro rfl
          exact hfills ⟨⟨hfirst, hseen, hend⟩, hparts.next_of_full⟩
        refine ⟨_, ?_, .begin hlt hge fun r hr => ?_⟩
        · exact ⟨hf ▸ hparts.push hroom _, hempty, rfl, hack, fun h => by simp at h⟩
        · obtain ⟨used, rfl⟩ := List.getLast?_eq_some_iff.mp hr
          rwa [show s.last = r from hparts.last] at hend
    · rw [if_neg hseen]
      have hlt' : seq < seen := hlast ▸ not_le.mp hseen
      by_cases hend : seq = (s.wlseqs_ s.wl_buftail_).seq - 1
      · rw [if_pos hend]
        cases used with
        | nil =>
          have he := hflag rfl
          subst he
          obtain ⟨f, free, rfl⟩ := List.exists_cons_of_ne_nil hparts.room
          have hf : s.wlseqs_ s.wl_buftail_ = f := hparts.empty_iff.mpr rfl ▸ hparts.next_free
          refine ⟨_, ?_, .frontFree (hlt rfl) hlt' (hf ▸ hend)⟩
          exact ⟨hf ▸ hparts.set_next_free _, hempty, hlast, hack, hflag⟩
        | cons r used =>
          have hr : s.wlseqs_ s.wl_buftail_ = r := hparts.first
          refine ⟨_, ?_, .front hlt hlt' (hr ▸ hend)⟩
          exact ⟨hr ▸ hparts.set_first _, hempty, hlast, hack, fun h => by cases h⟩
      · exact absurd ⟨hfirst, not_le.mp hseen, hend⟩ hi

theorem advance (h : s.Views v) (ack : ℤ) :
    ∃ s' k, s.advance ack = some s' ∧ s'.Views (v.acked ack k) := by
  have hfuel : v.used.length < SNOOP_WLSEQS + 1 := Nat.lt_succ_of_lt h.parts.length_lt
  obtain ⟨i, wlseqs, k, hloop, hparts⟩ := ackLoop_spec ack h.parts hfuel
  refine ⟨_, k, congrArg (Option.map _) hloop, hparts, ?_, h.lastSeen, rfl, ?_⟩
  · have he : i = s.wl_bufhead_ ↔ dropAcked ack v.used = [] := eq_comm.trans hparts.empty_iff
    by_cases hnil : dropAcked ack v.used = []
    · simp only [is, if_pos (he.mpr hnil), or_and_wlempty, View.acked, hnil, List.isEmpty_nil,
        Bool.or_true]
    · simp only [is, if_neg (mt he.mp hnil), View.acked, List.isEmpty_eq_false_iff.mpr hnil,
        Bool.or_false]
      exact h.empty
  · intro hnil
    simp only [View.acked] at hnil ⊢
    rw [hnil, List.isEmpty_nil, Bool.or_true]

theorem wlessloss_iff (h : s.Views v) :
    s.snoop_wlessloss ack = true ↔ ∀ r ∈ v.used.head?, ack + 1 < r.seq := by
  obtain ⟨empty, seen, lastAck, used, free⟩ := v
  have hempty := h.parts.empty_iff
  cases used with
  | nil => simp [snoop_wlessloss, hempty]
  | cons r used => 
    have hr : s.wlseqs_ s.wl_buftail_ = r := h.parts.first
    simp [snoop_wlessloss, hempty, hr]

theorem wlreset (h : s.Views v) : s.wlreset.Views v.reset where
  parts := by
    refine ⟨fun i hi => ?_, show 0 < SNOOP_WLSEQS by decide, rfl, rfl, ?_⟩
    · exact List.getElem?_replicate_of_lt (by simpa [View.reset] using hi)
    · simp [View.reset, SNOOP_WLSEQS]
  empty := show (SNOOP_WLEMPTY &&& SNOOP_WLEMPTY != 0) = true by decide
  lastSeen := h.lastSeen
  lastAck := h.lastAck
  flag := fun _ => rfl

theorem start (h : s.Views v) (seq : ℤ) :
    (s.start seq).Views (v.start (s.restarts seq)) := by
  have hsame : ∀ {t : SnoopWl} {w : View}, t.Views w →
      Views { t with wl_state_ := t.wl_state_ ||| SNOOP_WLALIVE } w := fun ht => by
    refine ⟨ht.parts, ?_, ht.lastSeen, ht.lastAck, ht.flag⟩
    simp only [is, and_wlempty_of_or]
    exact ht.empty
  by_cases hr : s.restarts seq = true
  · simp only [SnoopWl.start, View.start, if_pos hr]
    exact hsame h.wlreset
  · simp only [SnoopWl.start, View.start, if_neg hr]
    exact hsame h

end Views

end SnoopWl

end Ns2
