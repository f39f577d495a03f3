import Ns2.Lib.Machine

/-! The feature negotiations of a DCCP agent: one record for each, split over four arrays. -/

namespace Ns2

inductive FeatureLocation
  | local
  | remote
  deriving DecidableEq

inductive FeatureOption
  | changeL
  | confirmL
  | changeR
  | confirmR
  deriving DecidableEq

structure FeatureLists where
  feat_size_ : ℕ
  feat_list_num_ : ℕ → BitVec 8
  feat_list_loc_ : ℕ → FeatureLocation
  feat_list_seq_num_ : ℕ → ℕ
  feat_list_first_ : ℕ → Bool
  feat_list_used_ : ℕ
  /-- `feat_conf_num_` and `feat_conf_loc_`, as far as they are used. -/
  feat_conf_ : List (BitVec 8 × FeatureLocation)

namespace FeatureLists

variable (num : BitVec 8) (location : FeatureLocation)

/-- The position of a negotiation, `none` for -1. -/
def findFeatureInList (a : FeatureLists) : Option ℕ :=
  (List.range a.feat_list_used_).find? fun walker =>
    a.feat_list_num_ walker == num && a.feat_list_loc_ walker == location

def featureIsChanging (a : FeatureLists) : Bool :=
  (List.range a.feat_list_used_).any fun i =>
    a.feat_list_num_ i == num && a.feat_list_loc_ i == location

/-- The number of entries is kept in eight bits. -/
def append (a : FeatureLists) : FeatureLists :=
  { a with
    feat_list_num_ := Function.update a.feat_list_num_ a.feat_list_used_ num
    feat_list_loc_ := Function.update a.feat_list_loc_ a.feat_list_used_ location
    feat_list_seq_num_ := Function.update a.feat_list_seq_num_ a.feat_list_used_ 0
    feat_list_first_ := Function.update a.feat_list_first_ a.feat_list_used_ true
    feat_list_used_ := (a.feat_list_used_ + 1) % 2 ^ 8 }

def changeFeature (allow_mult_neg_ : ℤ) (seq_num_ : ℕ) (a : FeatureLists) : Bool × FeatureLists :=
  if allow_mult_neg_ > 0 then
    match a.findFeatureInList num location with
    | some pos =>
      (true, { a with
        feat_list_seq_num_ := Function.update a.feat_list_seq_num_ pos seq_num_
        feat_list_first_ := Function.update a.feat_list_first_ pos true })
    | none =>
      if a.feat_list_used_ = a.feat_size_ then (false, a) else (true, a.append num location)
  else if a.feat_list_used_ = a.feat_size_ ∨ a.featureIsChanging num location then (false, a)
  else (true, a.append num location)

def confirmFeature (a : FeatureLists) : FeatureLists :=
  if (num, location) ∉ a.feat_conf_ ∧ a.feat_conf_.length < a.feat_size_ then
    { a with feat_conf_ := a.feat_conf_ ++ [(num, location)] }
  else a

/-- The rest of the list moves up by one, from the entry `i` on. -/
def moveLoop : ℕ → ℕ → FeatureLists → FeatureLists
  | 0, _, a => a
  | k + 1, i, a => moveLoop k (i + 1) { a with
      feat_list_num_ := Function.update a.feat_list_num_ i (a.feat_list_num_ (i + 1))
      feat_list_loc_ := Function.update a.feat_list_loc_ i (a.feat_list_loc_ (i + 1)) }

def finishFeatureNegotiation (a : FeatureLists) : Bool × FeatureLists :=
  match a.findFeatureInList num location with
  | none => (false, a)
  | some walker =>
    let a' := a.moveLoop (a.feat_list_used_ - 1 - walker) walker
    (true, { a' with feat_list_used_ := a'.feat_list_used_ - 1 })

end FeatureLists

/-- What the agent knows when it builds a packet. -/
structure PacketContext where
  packet_recv_ : Bool
  ack_num_recv_ : ℕ
  seq_num_ : ℕ
  getFeature : BitVec 8 → FeatureLocation → ℤ

namespace FeatureLists

abbrev SentOption := FeatureOption × BitVec 8

def changeType : FeatureLocation → FeatureOption
  | .local => .changeL
  | .remote => .changeR

def confirmType : FeatureLocation → FeatureOption
  | .local => .confirmL
  | .remote => .confirmR

def addChange (c : PacketContext) (r : FeatureLists × List SentOption) (i : ℕ) :
    FeatureLists × List SentOption :=
  let a := r.1
  if !c.packet_recv_ || a.feat_list_first_ i || a.feat_list_seq_num_ i ≤ c.ack_num_recv_ then
    if c.getFeature (a.feat_list_num_ i) (a.feat_list_loc_ i) > 0 then
      ({ a with
        feat_list_seq_num_ := Function.update a.feat_list_seq_num_ i c.seq_num_
        feat_list_first_ := Function.update a.feat_list_first_ i false },
        r.2 ++ [(changeType (a.feat_list_loc_ i), a.feat_list_num_ i)])
    else r
  else r

def confirms (c : PacketContext) (a : FeatureLists) : List SentOption :=
  a.feat_conf_.filterMap fun x =>
    if c.getFeature x.1 x.2 > 0 then some (confirmType x.2, x.1) else none

def addFeatureOptions (c : PacketContext) (a : FeatureLists) : FeatureLists × List SentOption :=
  let r := (List.range a.feat_list_used_).foldl (addChange c) (a, [])
  ({ r.1 with feat_conf_ := [] }, r.2 ++ r.1.confirms c)

end FeatureLists

inductive FeatureCall
  | changeFeature (allow_mult_neg_ : ℤ) (seq_num_ : ℕ) (num : BitVec 8) (location : FeatureLocation)
  | confirmFeature (num : BitVec 8) (location : FeatureLocation)
  | addFeatureOptions (c : PacketContext)
  | finishFeatureNegotiation (num : BitVec 8) (location : FeatureLocation)

inductive FeatureReply
  | done
  | answer (b : Bool)
  | options (os : List FeatureLists.SentOption)
  deriving DecidableEq

def FeatureLists.call (a : FeatureLists) : FeatureCall → FeatureLists × FeatureReply
  | .changeFeature mult seq num location =>
    ((a.changeFeature num location mult seq).2, .answer (a.changeFeature num location mult seq).1)
  | .confirmFeature num location => (a.confirmFeature num location, .done)
  | .addFeatureOptions c => ((a.addFeatureOptions c).1, .options (a.addFeatureOptions c).2)
  | .finishFeatureNegotiation num location =>
    ((a.finishFeatureNegotiation num location).2,
      .answer (a.finishFeatureNegotiation num location).1)

end Ns2
