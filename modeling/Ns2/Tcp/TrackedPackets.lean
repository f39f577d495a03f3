import Ns2.Tcp.ScoreBoard

/-! The packets that a sender tracks, each with what happened to it since, and the scoreboard
as a ring that holds them. -/

namespace Ns2

open RingBuffer

/-- What happens to a tracked packet. -/
inductive PacketEvent where
  | block (left right : ℤ)
  | retran

/-- The packets from `first` up to `hi`, each with its events, the newest first. -/
structure Board where
  last_ack : ℤ
  first : ℤ
  hi : ℤ
  log : ℤ → List PacketEvent

/-- Packet `i` was covered by a block. -/
def Sacked (i : ℤ) (log : List PacketEvent) : Prop := ∃ l r, PacketEvent.block l r ∈ log ∧ l ≤ i ∧ i < r

def Retransmitted (log : List PacketEvent) : Prop := PacketEvent.retran ∈ log

/-- Packet `i` was retransmitted and no block has covered it afterwards. -/
def pending (i : ℤ) : List PacketEvent → Bool
  | [] => false
  | .retran :: _ => true
  | .block l r :: log => !decide (l ≤ i ∧ i < r) && pending i log

theorem sacked_block {i l r : ℤ} {log : List PacketEvent} :
    Sacked i (.block l r :: log) ↔ (l ≤ i ∧ i < r) ∨ Sacked i log := by
  constructor
  · rintro ⟨l', r', hm, hi⟩
    rcases List.mem_cons.mp hm with he | hm
    · cases he
      exact .inl hi
    · exact .inr ⟨l', r', hm, hi⟩
  · rintro (hi | ⟨l', r', hm, hi⟩)
    · exact ⟨l, r, by simp, hi⟩
    · exact ⟨l', r', List.mem_cons_of_mem _ hm, hi⟩

theorem sacked_retran {i : ℤ} {log : List PacketEvent} : Sacked i (.retran :: log) ↔ Sacked i log := by
  simp [Sacked]

theorem pending_of_not_sacked {i : ℤ} {log : List PacketEvent} (h : ¬ Sacked i log) :
    pending i log = true ↔ Retransmitted log := by
  induction log with
  | nil => simp [pending, Retransmitted]
  | cons e log ih =>
    cases e with
    | retran => simp [pending, Retransmitted]
    | block l r =>
      rw [sacked_block, not_or] at h
      simpa [pending, h.1, Retransmitted] using ih h.2

namespace Board

def new : Board := ⟨-1, 0, 0, fun _ => []⟩

/-- How many of the `n` packets from `i` on are pending. -/
def pendings (log : ℤ → List PacketEvent) : ℕ → ℤ → ℤ
  | 0, _ => 0
  | n + 1, i => (if pending i (log i) then 1 else 0) + pendings log n (i + 1)

/-- The packets up to `a` are acknowledged. -/
def ack (a : ℤ) (t : Board) : Board × ℤ :=
  let first := max t.first (min (a + 1) t.hi)
  ({ t with last_ack := a, first := first }, pendings t.log (first - t.first).toNat t.first)

/-- The packets up to `hi` are tracked. -/
def track (hi : ℤ) (t : Board) : Board :=
  { t with hi := max t.hi hi, log := fun i => if t.hi ≤ i then [] else t.log i }

/-- A block is processed. -/
def report (r : Board × ℤ) (b : ℤ × ℤ) : Board × ℤ :=
  let t := r.1.track b.2
  let lo := max t.first b.1
  ({ t with log := fun i => .block b.1 b.2 :: t.log i }, r.2 + pendings t.log (b.2 - lo).toNat lo)

/-- The first packet behind the acknowledgement is tracked if there is something to report. -/
def start (sacks : List (ℤ × ℤ)) (t : Board) : Board :=
  if t.first = t.hi ∧ sacks ≠ [] then
    track (t.last_ack + 2) { t with first := t.last_ack + 1, hi := t.last_ack + 1 }
  else t

theorem start_last_ack (sacks : List (ℤ × ℤ)) (t : Board) :
    (t.start sacks).last_ack = t.last_ack := by
  rw [start]
  split_ifs <;> rfl

theorem start_lt (t : Board) (hle : t.first ≤ t.hi) {sacks : List (ℤ × ℤ)} (hne : sacks ≠ []) :
    (t.start sacks).first < (t.start sacks).hi := by
  rw [start]
  split_ifs with hc
  · show t.last_ack + 1 < max (t.last_ack + 1) (t.last_ack + 2)
    omega
  · exact lt_of_le_of_ne hle fun he => hc ⟨he, hne⟩

def step (t : Board) : ScoreBoard.Op → Option (Board × ℤ)
  | .updateScoreBoard last_ack sacks =>
    let r := t.ack last_ack
    some (sacks.foldl report (r.1.start sacks, r.2))
  | .markRetran seq _ =>
    some ({ t with log := Function.update t.log seq (.retran :: t.log seq) }, 0)
  | .clearScoreBoard => some ({ t with hi := t.first }, 0)

theorem step_total (t : Board) (op : ScoreBoard.Op) : ∃ t' o, t.step op = some (t', o) ∧ True := by
  cases op <;> exact ⟨_, _, rfl, trivial⟩

/-- The acknowledgement does not decrease, and only tracked packets are marked. -/
def Admitted (t : Board) : ScoreBoard.Op → Prop
  | .updateScoreBoard last_ack _ => t.last_ack ≤ last_ack
  | .markRetran seq _ => t.first ≤ seq ∧ seq < t.hi
  | .clearScoreBoard => True

end Board

namespace ScoreBoard

/-- The node of packet `i` with its events. -/
structure IsNode (i : ℤ) (log : List PacketEvent) (node : ScoreBoardNode) : Prop where
  seq_no : node.seq_no_ = i
  ack_flag : node.ack_flag_ = false
  sack_flag : node.sack_flag_ = true ↔ Sacked i log
  retran : node.retran_ = pending i log

theorem IsNode.block_of_not {i l r : ℤ} {log : List PacketEvent} {node : ScoreBoardNode}
    (h : IsNode i log node) (hi : ¬ (l ≤ i ∧ i < r)) : IsNode i (.block l r :: log) node := by
  refine ⟨h.seq_no, h.ack_flag, ?_, ?_⟩
  · rw [h.sack_flag, sacked_block, or_iff_right hi]
  · simp [h.retran, pending, hi]

theorem IsNode.block {i l r : ℤ} {log : List PacketEvent} {node : ScoreBoardNode} (h : IsNode i log node)
    (hi : l ≤ i ∧ i < r) :
    IsNode i (.block l r :: log) { node with sack_flag_ := true, retran_ := false } := by
  refine ⟨h.seq_no, h.ack_flag, ?_, ?_⟩
  · simp [sacked_block, hi]
  · simp [pending, hi]

theorem IsNode.retran' {i : ℤ} {log : List PacketEvent} {node : ScoreBoardNode} (h : IsNode i log node)
    (snd_nxt : ℤ) :
    IsNode i (.retran :: log) { node with retran_ := true, snd_nxt_ := snd_nxt } :=
  ⟨h.seq_no, h.ack_flag, h.sack_flag.trans sacked_retran.symm, rfl⟩

/-- The ring holds the nodes of the packets from `lo` up to `hi`. -/
structure Window (log : ℤ → List PacketEvent) (lo hi : ℤ) (s : ScoreBoard) : Prop where
  nonneg : 0 ≤ lo
  le : lo ≤ hi
  first : s.first_ = lo
  length : s.length_ = hi - lo
  fits : hi - lo < s.sbsize_
  size : 2 ≤ s.sbsize_
  node : ∀ i, lo ≤ i → i < hi → IsNode i (log i) (s.SBNI i)

theorem slot_ne {sz : ℕ} {i j : ℤ} (hi : 0 ≤ i) (hj : 0 ≤ j) (hne : i ≠ j) (hij : i < j + sz)
    (hji : j < i + sz) : slot sz i ≠ slot sz j := fun he =>
  hne (toNat_mod_inj hi hj hij hji he)

theorem IsNode.stored {s s' : ScoreBoard} {i : ℤ} {log : List PacketEvent} {node : ScoreBoardNode}
    (h : IsNode i log node) (hs : s'.SBN = s.store i node) (hz : s'.sbsize_ = s.sbsize_) :
    IsNode i log (s'.SBNI i) := by
  rw [SBNI, hs, hz, store, Function.update_self]
  exact h

theorem IsNode.kept {s s' : ScoreBoard} {i j : ℤ} {log : List PacketEvent} {node : ScoreBoardNode}
    (h : IsNode j log (s.SBNI j)) (hs : s'.SBN = s.store i node) (hz : s'.sbsize_ = s.sbsize_)
    (hne : slot s.sbsize_ j ≠ slot s.sbsize_ i) : IsNode j log (s'.SBNI j) := by
  rw [SBNI, hs, hz, store, Function.update_of_ne hne]
  exact h

theorem Window.congr {log log' : ℤ → List PacketEvent} {lo hi : ℤ} {s : ScoreBoard} (h : Window log lo hi s)
    (he : ∀ i, lo ≤ i → i < hi → log i = log' i) : Window log' lo hi s :=
  ⟨h.nonneg, h.le, h.first, h.length, h.fits, h.size, fun i hi hlt => he i hi hlt ▸ h.node i hi hlt⟩

theorem Window.seq_first {log : ℤ → List PacketEvent} {lo hi : ℤ} {s : ScoreBoard} (h : Window log lo hi s)
    (hlt : lo < hi) : (s.SBNI s.first_).seq_no_ = lo := by
  rw [h.first]
  exact (h.node lo le_rfl hlt).seq_no

theorem Window.lastSeq {log : ℤ → List PacketEvent} {lo hi : ℤ} {s : ScoreBoard} (h : Window log lo hi s)
    (hlt : lo < hi) : s.lastSeq = hi - 1 := by
  have hnn := h.nonneg
  have hsl : slot s.sbsize_ (s.first_ + s.length_ + s.sbsize_ - 1) = slot s.sbsize_ (hi - 1) := by
    rw [h.first, h.length, slot, slot,
      show (lo + (hi - lo) + s.sbsize_ - 1).toNat = (hi - 1).toNat + s.sbsize_ by omega,
      Nat.add_mod_right]
  rw [ScoreBoard.lastSeq, SBNI, hsl]
  exact (h.node (hi - 1) (by omega) (by omega)).seq_no

/-! ### Resizing and new entries -/

theorem Window.resizeSB {log : ℤ → List PacketEvent} {lo hi : ℤ} {s : ScoreBoard} (h : Window log lo hi s)
    (hlt : lo < hi) (uninit : ℕ → ScoreBoardNode) {sz : ℕ} (hsz : s.sbsize_ ≤ sz) :
    Window log lo hi (resizeSB uninit sz s) := by
  have hnn := h.nonneg
  have hfits := h.fits
  have hsize := h.size
  refine ⟨h.nonneg, h.le, h.first, h.length, ?_, ?_, fun i hi hih => ?_⟩
  · show hi - lo < (sz : ℤ)
    omega
  · show 2 ≤ sz
    omega
  · have hn := h.node i hi hih
    have : (ScoreBoard.resizeSB uninit sz s).SBNI i = s.SBNI i := by
      show fill (slot sz) s.SBNI (s.SBNI s.first_).seq_no_ (s.length_ + 1).toNat uninit (slot sz i) = _
      rw [h.seq_first hlt, h.length]
      apply fill_of_mem
      · exact hi
      · omega
      · intro j hij hj
        exact slot_ne (by omega) (by omega) (by omega) (by omega) (by omega)
    rwa [this]

theorem Window.grow {log : ℤ → List PacketEvent} {lo hi : ℤ} {s : ScoreBoard} (h : Window log lo hi s)
    (hlt : lo < hi) (uninit : ℕ → ScoreBoardNode) {needed : ℤ} {fuel : ℕ}
    (hpos : 0 < fuel) (hfuel : needed + 2 < s.sbsize_ + fuel) :
    ∃ s', grow uninit needed fuel s = some s' ∧ Window log lo hi s' ∧ needed < s'.sbsize_ - 1 := by
  induction fuel generalizing s with
  | zero => omega
  | succ fuel ih =>
    rw [ScoreBoard.grow]
    by_cases hge : needed ≥ s.sbsize_ - 1
    · rw [if_pos hge]
      have hsize := h.size
      apply ih (h.resizeSB hlt uninit (by omega))
      · omega
      · show needed + 2 < ((s.sbsize_ * 2 : ℕ) : ℤ) + fuel
        omega
    · rw [if_neg hge]
      exact ⟨s, rfl, h, by omega⟩

theorem Window.append {log : ℤ → List PacketEvent} {lo hi : ℤ} {s : ScoreBoard} (h : Window log lo hi s)
    (hlog : log hi = []) (hfits : hi + 1 - lo < s.sbsize_) :
    ∃ s', append hi s = some s' ∧ Window log lo (hi + 1) s' ∧ s'.sbsize_ = s.sbsize_ := by
  have hnn := h.nonneg
  have hle := h.le
  have hlen := h.length
  rw [ScoreBoard.append, if_neg (by omega)]
  refine ⟨_, rfl, ⟨h.nonneg, by omega, h.first, ?_, hfits, h.size, fun i hi' hlt => ?_⟩, rfl⟩
  · show s.length_ + 1 = hi + 1 - lo
    omega
  · by_cases he : i = hi
    · subst he
      refine IsNode.stored ?_ rfl rfl
      rw [hlog]
      exact ⟨rfl, rfl, by simp [Sacked], rfl⟩
    · refine (h.node i hi' (by omega)).kept rfl rfl ?_
      exact slot_ne (by omega) (by omega) he (by omega) (by omega)

theorem Window.extend {log : ℤ → List PacketEvent} {lo hi : ℤ} {s : ScoreBoard} (h : Window log lo hi s)
    {n : ℕ} (hlog : ∀ i, hi ≤ i → log i = []) (hfits : hi + n - lo < s.sbsize_) :
    ∃ s', extend n hi s = some s' ∧ Window log lo (hi + n) s' ∧ s'.sbsize_ = s.sbsize_ := by
  induction n generalizing hi s with
  | zero => exact ⟨s, rfl, by simpa using h, rfl⟩
  | succ n ih =>
    obtain ⟨s₁, h1, hw, hsz⟩ := h.append (hlog hi le_rfl) (by push_cast at hfits; omega)
    obtain ⟨s₂, h2, hw', hsz'⟩ := ih hw (fun i hi => hlog i (by omega))
      (by rw [hsz]; push_cast at hfits; omega)
    refine ⟨s₂, ?_, ?_, hsz'.trans hsz⟩
    · rw [ScoreBoard.extend, h1]
      exact h2
    · rwa [show hi + ((n + 1 : ℕ) : ℤ) = hi + 1 + n by push_cast; ring]

/-! ### The acknowledgement -/

theorem Window.advance {log : ℤ → List PacketEvent} {lo hi : ℤ} {s : ScoreBoard} (h : Window log lo hi s)
    (hlt : lo < hi) {a : ℤ} {n : ℕ} (hn : lo + n = a + 1) (d : ℤ) :
    ∃ s', advance a n lo s d =
        some (s', d + Board.pendings log (min (a + 1) hi - lo).toNat lo) ∧
      Window log (min (a + 1) hi) hi s' := by
  induction n generalizing lo s d with
  | zero =>
    have hmin : min (a + 1) hi = lo := by omega
    rw [hmin, sub_self]
    exact ⟨s, by simp [ScoreBoard.advance, Board.pendings], h⟩
  | succ n ih =>
    have hnn := h.nonneg
    have hfits := h.fits
    have hlen := h.length
    have hnode := h.node lo le_rfl hlt
    obtain ⟨m, hm⟩ : ∃ m, (min (a + 1) hi - lo).toNat = m + 1 := ⟨_, Nat.succ_pred (by omega) |>.symm⟩
    have hstep : ∀ node, Window log (lo + 1) hi { s with
        first_ := s.first_ + 1, length_ := s.length_ - 1, changed_ := s.changed_ + 1,
        SBN := s.store lo node } := by
      intro node
      refine ⟨by omega, by omega, ?_, ?_, ?_, h.size, fun i hi' hlt' => ?_⟩
      · show s.first_ + 1 = lo + 1
        rw [h.first]
      · show s.length_ - 1 = hi - (lo + 1)
        omega
      · show hi - (lo + 1) < s.sbsize_
        omega
      · refine (h.node i (by omega) hlt').kept rfl rfl ?_
        exact slot_ne (by omega) (by omega) (by omega) (by omega) (by omega)
    rw [ScoreBoard.advance]
    dsimp only
    rw [hnode.seq_no, if_pos (by omega), if_neg (by rw [h.first]; omega), hm, Board.pendings,
      ← hnode.retran]
    by_cases hlast : s.length_ - 1 = 0
    · rw [if_pos hlast]
      have hm0 : m = 0 := by omega
      have hmin : min (a + 1) hi = lo + 1 := by omega
      rw [hm0, hmin, Board.pendings, add_zero]
      exact ⟨_, rfl, hstep _⟩
    · rw [if_neg hlast]
      obtain ⟨s', h1, h2⟩ := ih (hstep _) (by omega) (by push_cast at hn; omega) _
      refine ⟨s', h1.trans ?_, h2⟩
      rw [show (min (a + 1) hi - (lo + 1)).toNat = m by omega, add_assoc]

/-! ### Blocks -/

/-- The events when the loop over a block has reached packet `i`. -/
def partly (l r : ℤ) (log : ℤ → List PacketEvent) (i j : ℤ) : List PacketEvent :=
  if j < i then .block l r :: log j else log j

theorem Window.cover {log : ℤ → List PacketEvent} {lo hi l r i : ℤ} {s : ScoreBoard} {n : ℕ}
    (h : Window (partly l r log i) lo hi s) (hlo : lo ≤ i) (hn : n = (r - i).toNat) (hr : r ≤ hi)
    (d : ℤ) : Window (fun j => .block l r :: log j) lo hi (cover l r n i s d).1 ∧
      (cover l r n i s d).2 = d + Board.pendings log (r - max i l).toNat (max i l) ∧
      (cover l r n i s d).1.sbsize_ = s.sbsize_ := by
  induction n generalizing i s d with
  | zero =>
    have hle : r ≤ i := by omega
    rw [show (r - max i l).toNat = 0 by omega]
    refine ⟨⟨h.nonneg, h.le, h.first, h.length, h.fits, h.size, fun j hj hjh => ?_⟩,
      by simp [ScoreBoard.cover, Board.pendings], rfl⟩
    have hnode := h.node j hj hjh
    rw [partly] at hnode
    split_ifs at hnode with hlt
    · exact hnode
    · exact hnode.block_of_not (by omega)
  | succ n ih =>
    have hnn := h.nonneg
    have hfits := h.fits
    have hnode := h.node i hlo (by omega)
    rw [partly, if_neg (lt_irrefl i)] at hnode
    have hcond : (s.SBNI i).seq_no_ ≥ l ∧ (s.SBNI i).seq_no_ < r ↔ i ≥ l ∧ i < r := by
      rw [hnode.seq_no]
    rw [ScoreBoard.cover]
    dsimp only
    by_cases hcov : i ≥ l ∧ i < r
    · rw [if_pos (hcond.mpr hcov)]
      have hw : Window (partly l r log (i + 1)) lo hi { s with
          changed_ := s.changed_ + if (s.SBNI i).sack_flag_ then 0 else 1
          SBN := s.store i { s.SBNI i with sack_flag_ := true, retran_ := false } } := by
        refine ⟨h.nonneg, h.le, h.first, h.length, h.fits, h.size, fun j hj hjh => ?_⟩
        by_cases he : j = i
        · subst he
          refine IsNode.stored ?_ rfl rfl
          rw [partly, if_pos (by omega)]
          exact hnode.block hcov
        · rw [partly, if_congr (show j < i + 1 ↔ j < i by omega) rfl rfl, ← partly]
          refine (h.node j hj hjh).kept rfl rfl ?_
          exact slot_ne (by omega) (by omega) he (by omega) (by omega)
      obtain ⟨h1, h2, h3⟩ := ih hw (by omega) (by omega)
        (d + if (s.SBNI i).retran_ then 1 else 0)
      refine ⟨h1, h2.trans ?_, h3⟩
      rw [max_eq_left hcov.1, max_eq_left (by omega : l ≤ i + 1),
        show (r - i).toNat = (r - (i + 1)).toNat + 1 by omega, Board.pendings, hnode.retran, add_assoc]
    · rw [if_neg (hcond.not.mpr hcov)]
      have hw : Window (partly l r log (i + 1)) lo hi s := by
        refine ⟨h.nonneg, h.le, h.first, h.length, h.fits, h.size, fun j hj hjh => ?_⟩
        by_cases he : j = i
        · subst he
          rw [partly, if_pos (by omega)]
          exact hnode.block_of_not hcov
        · rw [partly, if_congr (show j < i + 1 ↔ j < i by omega) rfl rfl, ← partly]
          exact h.node j hj hjh
      obtain ⟨h1, h2, h3⟩ := ih hw (by omega) (by omega) d
      refine ⟨h1, h2.trans ?_, h3⟩
      rw [max_eq_right (by omega : i ≤ l), max_eq_right (by omega : i + 1 ≤ l)]

theorem Window.extendTo {t : Board} {a r : ℤ} {s : ScoreBoard} (h : Window t.log t.first t.hi s)
    (hlt : t.first < t.hi) (ha : t.first = a + 1) (uninit : ℕ → ScoreBoardNode) :
    ∃ s', extendTo uninit a r s = some s' ∧
      Window (t.track r).log t.first (t.track r).hi s' := by
  have hnn := h.nonneg
  have hsize := h.size
  have hkeep : Window (t.track r).log t.first t.hi s := by
    refine h.congr fun i _ hi => ?_
    show t.log i = if t.hi ≤ i then [] else t.log i
    rw [if_neg (not_le.mpr hi)]
  rw [ScoreBoard.extendTo, h.lastSeq hlt]
  by_cases hgt : r > t.hi - 1
  · rw [if_pos hgt]
    obtain ⟨s₂, h2, hw2, hsz⟩ := @Window.grow _ _ _ _ hkeep hlt uninit (r - a) ((r - a).toNat + 1)
      (by omega) (by omega)
    rw [h2, Option.bind_some, hw2.lastSeq hlt, sub_add_cancel]
    obtain ⟨s₃, h3, hw3, -⟩ := @Window.extend _ _ _ _ hw2 (r - t.hi).toNat
      (fun i hi => if_pos hi) (by omega)
    refine ⟨s₃, h3, ?_⟩
    rwa [show t.hi + ((r - t.hi).toNat : ℤ) = max t.hi r by omega] at hw3
  · rw [if_neg hgt]
    refine ⟨s, rfl, ?_⟩
    rwa [show (t.track r).hi = t.hi from max_eq_left (by omega)]

/-- One block: entries are created up to its right edge, and it is an event of all packets. -/
theorem Window.sackBlock {t : Board} {a d : ℤ} {s : ScoreBoard} (h : Window t.log t.first t.hi s)
    (hlt : t.first < t.hi) (ha : t.first = a + 1) (uninit : ℕ → ScoreBoardNode) (b : ℤ × ℤ) :
    ∃ s', sackBlock uninit a (s, d) b = some (s', (Board.report (t, d) b).2) ∧
      Window (Board.report (t, d) b).1.log t.first (Board.report (t, d) b).1.hi s' := by
  obtain ⟨s₁, h1, hw⟩ := @Window.extendTo _ _ b.2 _ h hlt ha uninit
  have hpart : Window (partly b.1 b.2 (t.track b.2).log t.first) t.first (t.track b.2).hi s₁ := by
    refine hw.congr fun i hi _ => ?_
    rw [partly, if_neg (not_lt.mpr hi)]
  have hseq := hw.seq_first (lt_of_lt_of_le hlt (le_max_left t.hi b.2))
  obtain ⟨hc1, hc2, -⟩ := hpart.cover le_rfl rfl (le_max_right _ _) d
  refine ⟨_, ?_, hc1⟩
  rw [ScoreBoard.sackBlock, h1, Option.map_some, hseq]
  exact congrArg some (Prod.ext rfl hc2)

theorem Window.sackBlocks {t : Board} {a d : ℤ} {s : ScoreBoard} (h : Window t.log t.first t.hi s)
    (hlt : t.first < t.hi) (ha : t.first = a + 1) (uninit : ℕ → ScoreBoardNode)
    (sacks : List (ℤ × ℤ)) :
    ∃ s', sacks.foldlM (ScoreBoard.sackBlock uninit a) (s, d) =
        some (s', (sacks.foldl Board.report (t, d)).2) ∧
      Window (sacks.foldl Board.report (t, d)).1.log t.first (sacks.foldl Board.report (t, d)).1.hi s' ∧
      (sacks.foldl Board.report (t, d)).1.first = t.first ∧
      (sacks.foldl Board.report (t, d)).1.last_ack = t.last_ack := by
  induction sacks generalizing t d s with
  | nil => exact ⟨s, rfl, h, rfl, rfl⟩
  | cons b sacks ih =>
    obtain ⟨s₁, h1, hw⟩ := @Window.sackBlock t a d s h hlt ha uninit b
    obtain ⟨s₂, h2, hw2⟩ := @ih (Board.report (t, d) b).1 (Board.report (t, d) b).2 s₁ hw
      (lt_of_lt_of_le hlt (le_max_left _ _)) ha
    refine ⟨s₂, ?_, hw2⟩
    rw [List.foldlM_cons, h1]
    exact h2

/-! ### Runs -/

/-- The board holds what is tracked, and the first packet is the one behind the
acknowledgement. -/
structure Tracks (s : ScoreBoard) (t : Board) : Prop where
  window : Window t.log t.first t.hi s
  acked : t.first < t.hi → t.first = t.last_ack + 1
  last_ack : -1 ≤ t.last_ack

theorem Tracks.advanceTo {s : ScoreBoard} {t : Board} (h : Tracks s t) {a : ℤ} (ha : t.last_ack ≤ a) :
    ∃ s', advanceTo a { s with changed_ := 0 } = some (s', (t.ack a).2) ∧ Tracks s' (t.ack a).1 := by
  have hlast := h.last_ack
  have hle := h.window.le
  have hw : Window t.log t.first t.hi { s with changed_ := 0 } :=
    ⟨h.window.nonneg, h.window.le, h.window.first, h.window.length, h.window.fits, h.window.size,
      h.window.node⟩
  have hlen : s.length_ = t.hi - t.first := h.window.length
  rw [ScoreBoard.advanceTo]
  dsimp only
  by_cases hadv : t.first < t.hi ∧ t.first ≤ a
  · have hmin : max t.first (min (a + 1) t.hi) = min (a + 1) t.hi := by omega
    obtain ⟨s', h1, h2⟩ := @Window.advance _ _ _ _ hw hadv.1 a (a + 1 - t.first).toNat (by omega) 0
    have hcond : s.length_ ≠ 0 ∧ (SBNI { s with changed_ := 0 } s.first_).seq_no_ ≤ a := by
      rw [hw.seq_first hadv.1]
      exact ⟨by omega, hadv.2⟩
    rw [if_pos hcond, hw.seq_first hadv.1, h1, zero_add, Board.ack]
    dsimp only
    rw [hmin]
    refine ⟨s', rfl, h2, fun hlt => ?_, by show -1 ≤ a; omega⟩
    change min (a + 1) t.hi < t.hi at hlt
    show min (a + 1) t.hi = a + 1
    omega
  · -- nothing is tracked, or nothing new is acknowledged
    have hmax : max t.first (min (a + 1) t.hi) = t.first := by
      have := h.acked
      omega
    have hcond : ¬ (s.length_ ≠ 0 ∧ (SBNI { s with changed_ := 0 } s.first_).seq_no_ ≤ a) := by
      rintro ⟨hne, hseq⟩
      have hlt : t.first < t.hi := by omega
      rw [hw.seq_first hlt] at hseq
      exact hadv ⟨hlt, hseq⟩
    rw [if_neg hcond, Board.ack]
    dsimp only
    rw [hmax, sub_self]
    refine ⟨_, rfl, hw, fun hlt => ?_, by show -1 ≤ a; omega⟩
    change t.first < t.hi at hlt
    have := h.acked hlt
    show t.first = a + 1
    omega

theorem Tracks.create {s : ScoreBoard} {t : Board} (h : Tracks s t) (sacks : List (ℤ × ℤ)) :
    ∃ s', create t.last_ack sacks s = some s' ∧ Tracks s' (t.start sacks) := by
  have hlast := h.last_ack
  have hsize := h.window.size
  have hempty : s.length_ = 0 ↔ t.first = t.hi := by
    rw [h.window.length]
    omega
  rw [ScoreBoard.create, Board.start, if_congr (and_congr_left' hempty) rfl rfl]
  by_cases hc : t.first = t.hi ∧ sacks ≠ []
  · rw [if_pos hc, if_pos hc]
    have hw : Window (fun i => if t.last_ack + 1 ≤ i then [] else t.log i) (t.last_ack + 1)
        (t.last_ack + 1) { s with first_ := t.last_ack + 1 } := by
      refine ⟨by omega, le_rfl, rfl, ?_, by rw [sub_self]; show (0 : ℤ) < s.sbsize_; omega,
        h.window.size, fun i hi hlt => by omega⟩
      rw [sub_self]
      exact hempty.mpr hc.1
    obtain ⟨s', h1, h2, -⟩ := hw.append (if_pos le_rfl) (by
      show t.last_ack + 1 + 1 - (t.last_ack + 1) < (s.sbsize_ : ℤ)
      omega)
    have hmax : max (t.last_ack + 1) (t.last_ack + 2) = t.last_ack + 1 + 1 := by omega
    refine ⟨s', h1, ?_, fun _ => rfl, hlast⟩
    show Window _ _ (max (t.last_ack + 1) (t.last_ack + 2)) s'
    rw [hmax]
    exact h2
  · rw [if_neg hc, if_neg hc]
    exact ⟨s, rfl, h⟩

theorem Tracks.step {s : ScoreBoard} {t : Board} (h : Tracks s t) (uninit : ℕ → ScoreBoardNode)
    {op : Op} (hop : t.Admitted op) : Machine.Agree Tracks (step uninit s op) (t.step op) := by
  cases op with
  | updateScoreBoard last_ack sacks =>
    obtain ⟨s₁, h1, ht1⟩ := h.advanceTo hop
    obtain ⟨s₂, h2, ht2⟩ := ht1.create sacks
    have hrun : UpdateScoreBoard uninit s last_ack sacks =
        sacks.foldlM (sackBlock uninit last_ack) (s₂, (t.ack last_ack).2) := by
      rw [UpdateScoreBoard, h1, Option.bind_some]
      exact congrArg (Option.bind · _) h2
    rw [ScoreBoard.step, hrun]
    by_cases hnil : sacks = []
    · subst hnil
      exact .some ⟨ht2, rfl⟩
    · have hlt := (t.ack last_ack).1.start_lt ht1.window.le hnil
      obtain ⟨s₃, h3, hw3, hfirst, hack⟩ := @Window.sackBlocks _ last_ack (t.ack last_ack).2 _
        ht2.window hlt ((ht2.acked hlt).trans (by rw [Board.start_last_ack]; rfl)) uninit sacks
      rw [h3]
      refine .some ⟨⟨?_, fun _ => ?_, ?_⟩, rfl⟩
      · exact hfirst ▸ hw3
      · exact (hfirst.trans (ht2.acked hlt)).trans (congrArg (· + 1) hack.symm)
      · exact hack ▸ ht2.last_ack
  | markRetran seq snd_nxt =>
    have hnn := h.window.nonneg
    have hfits := h.window.fits
    obtain ⟨hlo, hhi⟩ := hop
    refine .some ⟨⟨?_, h.acked, h.last_ack⟩, rfl⟩
    refine ⟨h.window.nonneg, h.window.le, h.window.first, h.window.length, h.window.fits,
      h.window.size, fun i hi hlt => ?_⟩
    change t.first ≤ i at hi
    change i < t.hi at hlt
    by_cases he : i = seq
    · subst he
      refine IsNode.stored ?_ rfl rfl
      show IsNode i (Function.update t.log i (.retran :: t.log i) i) _
      rw [Function.update_self]
      exact (h.window.node i hi hlt).retran' _
    · refine IsNode.kept ?_ rfl rfl ?_
      · show IsNode i (Function.update t.log seq (.retran :: t.log seq) i) _
        rw [Function.update_of_ne he]
        exact h.window.node i hi hlt
      · exact slot_ne (by omega) (by omega) he (by omega) (by omega)
  | clearScoreBoard =>
    refine .some ⟨⟨?_, fun hlt => absurd hlt (lt_irrefl _), h.last_ack⟩, rfl⟩
    have hsize := h.window.size
    refine ⟨h.window.nonneg, le_rfl, h.window.first, (sub_self t.first).symm, ?_, h.window.size,
      fun i hi hlt => absurd hlt (not_lt.mpr hi)⟩
    show t.first - t.first < (s.sbsize_ : ℤ)
    omega

/-- The packets that may be retransmitted. -/
def unreported (t : Board) : Set ℤ :=
  {i | t.first ≤ i ∧ i < t.hi ∧ ¬ Sacked i (t.log i) ∧ ¬ Retransmitted (t.log i)}

theorem nextRetran_spec {log : ℤ → List PacketEvent} {lo hi i : ℤ} {s : ScoreBoard} {n : ℕ}
    (h : Window log lo hi s) (hlo : lo ≤ i) (hn : i + n = hi) :
    (nextRetran s n i = -1 ∧ ∀ j, i ≤ j → j < hi → Sacked j (log j) ∨ Retransmitted (log j)) ∨
      IsLeast {j | i ≤ j ∧ j < hi ∧ ¬ Sacked j (log j) ∧ ¬ Retransmitted (log j)}
        (nextRetran s n i) := by
  induction n generalizing i with
  | zero => exact .inl ⟨rfl, fun j hj hlt => by omega⟩
  | succ n ih =>
    have hnode := h.node i hlo (by omega)
    have hcond : (!(s.SBNI i).ack_flag_ && !(s.SBNI i).sack_flag_ && !(s.SBNI i).retran_) = true ↔
        ¬ Sacked i (log i) ∧ ¬ Retransmitted (log i) := by
      rw [hnode.ack_flag, hnode.retran, Bool.not_false, Bool.true_and, Bool.and_eq_true,
        Bool.not_eq_true', Bool.not_eq_true', ← Bool.not_eq_true, ← Bool.not_eq_true, hnode.sack_flag]
      exact and_congr_right fun h1 => (pending_of_not_sacked h1).not
    rw [nextRetran]
    by_cases hc : ¬ Sacked i (log i) ∧ ¬ Retransmitted (log i)
    · rw [if_pos (hcond.mpr hc)]
      exact .inr ⟨⟨le_rfl, by omega, hc⟩, fun j hj => hj.1⟩
    · rw [if_neg (hcond.not.mpr hc)]
      rcases @ih (i + 1) (by omega) (by push_cast at hn; omega) with ⟨h1, h2⟩ | ⟨h1, h2⟩
      · refine .inl ⟨h1, fun j hj hlt => ?_⟩
        rcases eq_or_lt_of_le hj with rfl | hj
        · by_contra hno
          exact hc (not_or.mp hno)
        · exact h2 j (by omega) hlt
      · refine .inr ⟨⟨by have := h1.1; omega, h1.2⟩, fun j hj => ?_⟩
        apply h2
        refine ⟨?_, hj.2⟩
        rcases eq_or_lt_of_le hj.1 with he | hlt
        · exact absurd hj.2.2 (he ▸ hc)
        · exact hlt

theorem Tracks.getNextRetran {s : ScoreBoard} {t : Board} (h : Tracks s t) :
    GetNextRetran s = -1 ∧ unreported t = ∅ ∨ IsLeast (unreported t) (GetNextRetran s) := by
  have hlen := h.window.length
  have hle := h.window.le
  rw [GetNextRetran]
  by_cases hz : s.length_ = 0
  · rw [if_neg (not_not.mpr hz)]
    refine .inl ⟨rfl, Set.eq_empty_iff_forall_notMem.mpr fun i hi => ?_⟩
    have h1 := hi.1
    have h2 := hi.2.1
    omega
  · rw [if_pos hz, h.window.seq_first (by omega)]
    rcases @nextRetran_spec _ _ _ _ _ s.length_.toNat h.window le_rfl (by omega) with ⟨h1, h2⟩ | h1
    · refine .inl ⟨h1, Set.eq_empty_iff_forall_notMem.mpr fun i hi => ?_⟩
      exact (h2 i hi.1 hi.2.1).elim hi.2.2.1 hi.2.2.2
    · exact .inr h1

theorem Tracks.resizeSB {s : ScoreBoard} {t : Board} (h : Tracks s t) (hpos : 0 < s.length_)
    (uninit : ℕ → ScoreBoardNode) : Tracks (resizeSB uninit (s.sbsize_ * 2) s) t := by
  have hlen := h.window.length
  exact ⟨h.window.resizeSB (by omega) uninit (by omega), h.acked, h.last_ack⟩

theorem tracks_new (sbn : ℕ → ScoreBoardNode) {sz : ℕ} (hsz : 2 ≤ sz) :
    Tracks (new sbn sz) .new := by
  refine ⟨⟨le_rfl, le_rfl, rfl, rfl, ?_, hsz, fun i hi hlt => ?_⟩, fun hlt => ?_, le_rfl⟩
  · show (0 : ℤ) - 0 < sz
    omega
  · exact absurd hlt (not_lt.mpr hi)
  · exact absurd hlt (lt_irrefl _)

/-- On every run the scoreboard does what the tracked packets say, and no check fails. -/
theorem scoreboard_tracks (uninit sbn : ℕ → ScoreBoardNode) {sz : ℕ} (hsz : 2 ≤ sz) {ops : List Op}
    (hok : Machine.Admits Board.step Board.Admitted .new ops) :
    ∃ s t os, Machine.run (step uninit) (new sbn sz) ops = some (s, os) ∧
      Machine.run Board.step .new ops = some (t, os) ∧ Tracks s t ∧
      (0 < s.length_ → Tracks (resizeSB uninit (s.sbsize_ * 2) s) t) ∧
      (GetNextRetran s = -1 ∧ unreported t = ∅ ∨ IsLeast (unreported t) (GetNextRetran s)) := by
  have hagree := Machine.run_simulation (fun s t op h hop => h.step uninit hop)
    (tracks_new sbn hsz) hok
  obtain ⟨t, os, ht, -⟩ := Machine.run_total (I := fun _ => True) (fun t op _ _ => t.step_total op)
    trivial hok
  rw [ht] at hagree
  obtain ⟨s, hs, hst⟩ := hagree.of_some_right
  exact ⟨s, t, os, hs, ht, hst, fun hpos => hst.resizeSB hpos uninit, hst.getNextRetran⟩

theorem scoreboard_tracks_block : let node : ScoreBoardNode := ⟨0, false, false, false, 0⟩
    ∃ s t os, Machine.run (step fun _ => node) (new (fun _ => node) 1024)
        [.updateScoreBoard 5 [(8, 10)], .markRetran 6 none] = some (s, os) ∧
      Machine.run Board.step .new [.updateScoreBoard 5 [(8, 10)], .markRetran 6 none] =
        some (t, os) ∧ Tracks s t ∧
      (0 < s.length_ → Tracks (resizeSB (fun _ => node) (s.sbsize_ * 2) s) t) ∧
      (GetNextRetran s = -1 ∧ unreported t = ∅ ∨ IsLeast (unreported t) (GetNextRetran s)) := by
  intro node
  apply scoreboard_tracks
  · decide
  · refine ⟨show (-1 : ℤ) ≤ 5 by decide, fun t o h => ⟨?_, fun _ _ _ => trivial⟩⟩
    cases h
    exact ⟨by decide, by decide⟩

/-- A stale block creates an entry that no block covers, and `GetNextRetran` returns it although
no packet is sacked. -/
theorem getNextRetran_stale : let node : ScoreBoardNode := ⟨0, false, false, false, 0⟩
    ¬ ∀ ops, Machine.Admits Board.step Board.Admitted .new ops →
      ∀ s os, Machine.run (step fun _ => node) (new (fun _ => node) 1024) ops = some (s, os) →
        (∀ i j, s.first_ ≤ i → i < j → j < s.first_ + s.length_ →
          (s.SBNI i).sack_flag_ = false → (s.SBNI i).retran_ = false →
          (s.SBNI j).sack_flag_ = false) → GetNextRetran s = -1 := by
  dsimp only
  intro h
  have hrun := h [.updateScoreBoard 5 [(3, 4)]] ⟨show (-1 : ℤ) ≤ 5 by decide, fun _ _ _ => trivial⟩ _ _ rfl ?_
  · exact absurd hrun (by decide)
  · intro i j hi hij hj
    change (6 : ℤ) ≤ i at hi
    change j < (6 : ℤ) + 1 at hj
    omega

end ScoreBoard

end Ns2
