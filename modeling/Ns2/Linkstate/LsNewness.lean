import Ns2.Linkstate.LsNetwork

/-! When the newness tests agree with the order of sequence numbers that wrap around. -/

namespace Ns2

/-- `new` lies ahead of `old` by less than half of the number space. -/
def LsSeq.Newer (old new : LsSeq) : Prop := 0 < (new - old).val ∧ (new - old).val < 2 ^ 31

/-- The test of `isNewMessage` and `receiveTopo`. -/
def LsSeq.accepts (old new : LsSeq) : Prop := old < new ∨ old - new > lsWraparoundThreshold

/-- The numbers are not half of the space apart or more with the recorded one below, nor between a
quarter and half of it with the recorded one above. -/
def LsSeq.Apart (old new : LsSeq) : Prop :=
  ¬ old.val + 2 ^ 31 ≤ new.val ∧ ¬ (new.val + 2 ^ 30 < old.val ∧ old.val ≤ new.val + 2 ^ 31)

instance (old new : LsSeq) : Decidable (old.Newer new) := inferInstanceAs (Decidable (_ ∧ _))

instance (old new : LsSeq) : Decidable (old.Apart new) := inferInstanceAs (Decidable (_ ∧ _))

namespace LsSeq

theorem val_sub (a b : LsSeq) : (a - b).val =
    if b.val ≤ a.val then a.val - b.val else 2 ^ 32 + a.val - b.val := by
  have ha := a.isLt
  have hb := b.isLt
  rw [Fin.sub_def]
  split_ifs <;> simp only <;> omega

theorem accepts_iff (old new : LsSeq) :
    old.accepts new ↔ old.val < new.val ∨ new.val + 2 ^ 30 < old.val := by
  have hthreshold : lsWraparoundThreshold.val = 2 ^ 30 := rfl
  rw [accepts, gt_iff_lt, Fin.lt_def, Fin.lt_def, hthreshold, val_sub]
  split_ifs <;> omega

theorem newer_iff (old new : LsSeq) : old.Newer new ↔
    old.val < new.val ∧ new.val < old.val + 2 ^ 31 ∨ new.val + 2 ^ 31 < old.val := by
  have hold := old.isLt
  have hnew := new.isLt
  rw [Newer, val_sub]
  split_ifs <;> omega

theorem accepts_iff_newer (old new : LsSeq) :
    (old.accepts new ↔ old.Newer new) ↔ old.Apart new := by
  rw [accepts_iff, newer_iff, Apart]
  omega

end LsSeq

namespace LsMessageHistory

def step (self : LsMessageHistory) (msg : LsMessage) : Option (LsMessageHistory × Bool) :=
  some (self.isNewMessage msg)

/-- The recorded number of the origin, if any, is older than that of the message. -/
def IsNewer (self : LsMessageHistory) (msg : LsMessage) : Prop :=
  ∀ old, self.find msg.originNodeId_ = some old → old.Newer msg.sequenceNumber_

/-- No recorded number is replaced by one that is not newer. -/
def NeverBack (before after : LsMessageHistory) : Prop :=
  ∀ origin old, before.find origin = some old →
    ∃ new, after.find origin = some new ∧ (new = old ∨ old.Newer new)

/-- The message is accepted exactly when it is newer. -/
def Judges (self : LsMessageHistory) (msg : LsMessage) : Prop :=
  ((self.isNewMessage msg).2 = true ↔ self.IsNewer msg) ∧ NeverBack self (self.isNewMessage msg).1

/-- The recorded number and that of the message are compared rightly. -/
def Comparable (self : LsMessageHistory) (msg : LsMessage) : Prop :=
  ∀ old, self.find msg.originNodeId_ = some old → old.Apart msg.sequenceNumber_

theorem isNewMessage_none {self : LsMessageHistory} {msg : LsMessage}
    (h : self.find msg.originNodeId_ = none) :
    self.isNewMessage msg = (self.set msg.originNodeId_ msg.sequenceNumber_, true) := by
  simp only [isNewMessage, h]

theorem isNewMessage_some {self : LsMessageHistory} {msg : LsMessage} {old : LsSeq}
    (h : self.find msg.originNodeId_ = some old) :
    old.accepts msg.sequenceNumber_ ∧
        self.isNewMessage msg = (self.set msg.originNodeId_ msg.sequenceNumber_, true) ∨
      ¬ old.accepts msg.sequenceNumber_ ∧ self.isNewMessage msg = (self, false) := by
  by_cases ha : old.accepts msg.sequenceNumber_
  · have ha' := ha
    rw [LsSeq.accepts] at ha'
    simp only [isNewMessage, h, if_pos ha']
    exact .inl ⟨ha, trivial⟩
  · have ha' := ha
    rw [LsSeq.accepts] at ha'
    simp only [isNewMessage, h, if_neg ha']
    exact .inr ⟨ha, trivial⟩

theorem NeverBack.refl (self : LsMessageHistory) : NeverBack self self :=
  fun _ old h => ⟨old, h, .inl rfl⟩

theorem NeverBack.set {self : LsMessageHistory} {origin : ℤ} {new : LsSeq}
    (h : ∀ old, self.find origin = some old → old.Newer new) :
    NeverBack self (self.set origin new) := by
  intro o old ho
  rw [SortedMap.find_set]
  split_ifs with he
  · subst he
    exact ⟨new, rfl, .inr (h old ho)⟩
  · exact ⟨old, ho, .inl rfl⟩

theorem judges_iff (self : LsMessageHistory) (msg : LsMessage) :
    self.Judges msg ↔ self.Comparable msg := by
  cases h : self.find msg.originNodeId_ with
  | none =>
    have hnew : self.IsNewer msg := by simp [IsNewer, h]
    have hcomp : self.Comparable msg := by simp [Comparable, h]
    rw [Judges, isNewMessage_none h]
    exact iff_of_true ⟨iff_of_true rfl hnew, .set hnew⟩ hcomp
  | some old =>
    have hnew : self.IsNewer msg ↔ old.Newer msg.sequenceNumber_ := by simp [IsNewer, h]
    have hcomp : self.Comparable msg ↔ old.Apart msg.sequenceNumber_ := by simp [Comparable, h]
    rw [Judges, hcomp, hnew, ← LsSeq.accepts_iff_newer]
    rcases isNewMessage_some h with ⟨ha, he⟩ | ⟨ha, he⟩
    · rw [he]
      simp only [ha, true_iff]
      exact ⟨fun hj => hj.1, fun hn => ⟨hn, .set (hnew.mpr hn)⟩⟩
    · rw [he]
      simp only [ha, false_iff, Bool.false_eq_true]
      exact ⟨fun hj => hj.1, fun hn => ⟨hn, .refl self⟩⟩

end LsMessageHistory

namespace LsWork

theorem newer_some {m r : LsLinkState} {l l' : List LsLinkState} :
    newer (some (m :: l)) (r :: l') = some true ↔
      m.sequenceNumber_.accepts r.sequenceNumber_ := by
  simp [newer, LsSeq.accepts]

end LsWork

namespace LsMessageHistory

/-- The messages of a run are judged rightly exactly when each is comparable with the record, and so
is a record of a topology message with one's own. -/
theorem judges_run (self : LsMessageHistory) (msgs : List LsMessage) :
    (Machine.Admits step Judges self msgs ↔ Machine.Admits step Comparable self msgs) ∧
      ∀ (m r : LsLinkState) (l l' : List LsLinkState),
        (LsWork.newer (some (m :: l)) (r :: l') = some true ↔
          m.sequenceNumber_.Newer r.sequenceNumber_) ↔
        m.sequenceNumber_.Apart r.sequenceNumber_ := by
  constructor
  · constructor
    · exact fun h => h.imp fun s i => (judges_iff s i).mp
    · exact fun h => h.imp fun s i => (judges_iff s i).mpr
  · intro m r l l'
    rw [LsWork.newer_some]
    exact LsSeq.accepts_iff_newer _ _

/-- The number wraps to 1, and a copy of the message before comes late. -/
theorem old_copy_accepted : ¬ ∀ msgs, Machine.Admits step Judges .empty msgs := by
  intro h
  have hrun := (h [⟨.lsa, 1, 4294967295, 7, .null⟩, ⟨.lsa, 3, 1, 7, .null⟩,
    ⟨.lsa, 5, 4294967295, 7, .null⟩]).2 _ _ rfl
  have hlate := (hrun.2 _ _ rfl).1
  rw [judges_iff] at hlate
  exact absurd (hlate 1 (by decide)) (by decide)

end LsMessageHistory

end Ns2
