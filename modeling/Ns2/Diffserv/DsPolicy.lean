import Mathlib

/-! The policy classifier of a differentiated services edge: the meters and policers of the policy
table, and the flow table of the size based downgrade. -/

namespace Ns2

/-- `enum policyType` -/
inductive PolicyType
  | Null
  | TSW2CM
  | TSW3CM
  | TB
  | SRTCM
  | TRTCM
  | SFD
  deriving DecidableEq

structure PolicyTableEntry where
  sourceNode : ℤ
  destNode : ℤ
  policy_index : PolicyType
  codePt : ℤ
  cir : ℚ
  cbs : ℚ
  cBucket : ℚ
  ebs : ℚ
  eBucket : ℚ
  pir : ℚ
  pbs : ℚ
  pBucket : ℚ
  arrivalTime : ℚ
  avgRate : ℚ
  winLen : ℚ
  deriving DecidableEq

structure PolicerTableEntry where
  initialCodePt : ℤ
  downgrade1 : ℤ
  downgrade2 : ℤ
  policy_index : PolicyType
  deriving DecidableEq

/-- Which of its code points a policer gives. -/
inductive Marking
  | initialCodePt
  | downgrade1
  | downgrade2
  deriving DecidableEq

def PolicerTableEntry.point (policer : PolicerTableEntry) : Marking → ℤ
  | .initialCodePt => policer.initialCodePt
  | .downgrade1 => policer.downgrade1
  | .downgrade2 => policer.downgrade2

/-- `struct flow_entry` -/
structure FlowEntry where
  fid : ℤ
  last_update : ℚ
  bytes_sent : ℤ
  count : ℕ
  deriving DecidableEq

/-- What a policy reads of a packet, the clock, and the value of `Random::uniform(0.0, 1.0)`. -/
structure PolicyInput where
  saddr : ℤ
  daddr : ℤ
  flowid : ℤ
  size : ℤ
  now : ℚ
  uniform : ℚ
  deriving DecidableEq

namespace NullPolicy

def applyMeter (policy : PolicyTableEntry) (i : PolicyInput) : PolicyTableEntry :=
  { policy with arrivalTime := i.now }

end NullPolicy

/-- `TSW2CMPolicy::applyMeter` and `TSW3CMPolicy::applyMeter` -/
def tswTagger (policy : PolicyTableEntry) (i : PolicyInput) : PolicyTableEntry :=
  { policy with
    avgRate := (policy.avgRate * policy.winLen + i.size) /
      (i.now - policy.arrivalTime + policy.winLen)
    arrivalTime := i.now }

namespace TSW2CMPolicy

def applyPolicer (policy : PolicyTableEntry) (i : PolicyInput) : Marking :=
  if policy.avgRate > policy.cir ∧ i.uniform ≤ 1 - policy.cir / policy.avgRate then .downgrade1
  else .initialCodePt

end TSW2CMPolicy

namespace TSW3CMPolicy

def applyPolicer (policy : PolicyTableEntry) (i : PolicyInput) : Marking :=
  let rand := policy.avgRate * (1 - i.uniform)
  if rand > policy.pir then .downgrade2
  else if rand > policy.cir then .downgrade1
  else .initialCodePt

end TSW3CMPolicy

namespace TBPolicy

def applyMeter (policy : PolicyTableEntry) (i : PolicyInput) : PolicyTableEntry :=
  let tokenBytes := policy.cir * (i.now - policy.arrivalTime)
  { policy with
    cBucket :=
      if policy.cBucket + tokenBytes ≤ policy.cbs then policy.cBucket + tokenBytes else policy.cbs
    arrivalTime := i.now }

def applyPolicer (policy : PolicyTableEntry) (i : PolicyInput) : PolicyTableEntry × Marking :=
  if policy.cBucket - i.size ≥ 0 then
    ({ policy with cBucket := policy.cBucket - i.size }, .initialCodePt)
  else (policy, .downgrade1)

end TBPolicy

namespace SRTCMPolicy

def applyMeter (policy : PolicyTableEntry) (i : PolicyInput) : PolicyTableEntry :=
  let tokenBytes := policy.cir * (i.now - policy.arrivalTime)
  if policy.cBucket + tokenBytes ≤ policy.cbs then
    { policy with
      cBucket := policy.cBucket + tokenBytes
      arrivalTime := i.now }
  else
    let tokenBytes := tokenBytes - (policy.cbs - policy.cBucket)
    { policy with
      cBucket := policy.cbs
      eBucket :=
        if policy.eBucket + tokenBytes ≤ policy.ebs then policy.eBucket + tokenBytes else policy.ebs
      arrivalTime := i.now }

def applyPolicer (policy : PolicyTableEntry) (i : PolicyInput) : PolicyTableEntry × Marking :=
  if policy.cBucket - i.size ≥ 0 then
    ({ policy with cBucket := policy.cBucket - i.size }, .initialCodePt)
  else if policy.eBucket - i.size ≥ 0 then
    ({ policy with eBucket := policy.eBucket - i.size }, .downgrade1)
  else (policy, .downgrade2)

end SRTCMPolicy

namespace TRTCMPolicy

def applyMeter (policy : PolicyTableEntry) (i : PolicyInput) : PolicyTableEntry :=
  let tokenBytes := policy.cir * (i.now - policy.arrivalTime)
  let peakBytes := policy.pir * (i.now - policy.arrivalTime)
  { policy with
    cBucket :=
      if policy.cBucket + tokenBytes ≤ policy.cbs then policy.cBucket + tokenBytes else policy.cbs
    pBucket :=
      if policy.pBucket + peakBytes ≤ policy.pbs then policy.pBucket + peakBytes else policy.pbs
    arrivalTime := i.now }

def applyPolicer (policy : PolicyTableEntry) (i : PolicyInput) : PolicyTableEntry × Marking :=
  if policy.pBucket - i.size < 0 then (policy, .downgrade2)
  else if policy.cBucket - i.size < 0 then
    ({ policy with pBucket := policy.pBucket - i.size }, .downgrade1)
  else
    ({ policy with
      cBucket := policy.cBucket - i.size
      pBucket := policy.pBucket - i.size }, .initialCodePt)

end TRTCMPolicy

namespace SFDPolicy

def FLOW_TIME_OUT : ℚ := 5

/-- The loop of `applyMeter`, up to the entry of the flow; `false` if it has none. -/
def scan (i : PolicyInput) : List FlowEntry → List FlowEntry × Bool
  | [] => ([], false)
  | p :: ps =>
    if p.fid = i.flowid then
      ({ p with last_update := i.now, bytes_sent := p.bytes_sent + i.size } :: ps, true)
    else if p.last_update + FLOW_TIME_OUT < i.now then scan i ps
    else
      let r := scan i ps
      (p :: r.1, r.2)

def applyMeter (flow_table : List FlowEntry) (i : PolicyInput) : List FlowEntry :=
  let r := scan i flow_table
  if r.2 then r.1 else r.1 ++ [⟨i.flowid, i.now, i.size, 0⟩]

/-- What happens to a packet of a flow that has sent more than the threshold. -/
def penalize (policy : PolicyTableEntry) (downgrade2 : ℤ) (p : FlowEntry) (i : PolicyInput) :
    FlowEntry × Marking :=
  if downgrade2 = 0 then (p, .downgrade1)
  else if downgrade2 = 1 then
    (p, if i.uniform > 1 - policy.cir / p.bytes_sent then .initialCodePt else .downgrade1)
  else if p.count = 5 then ({ p with count := 0 }, .initialCodePt)
  else ({ p with count := p.count + 1 }, .downgrade1)

def applyPolicer (policy : PolicyTableEntry) (downgrade2 : ℤ) (i : PolicyInput) :
    List FlowEntry → List FlowEntry × Marking
  | [] => ([], .initialCodePt)
  | p :: ps =>
    if p.fid = i.flowid then
      if (p.bytes_sent : ℚ) > policy.cir then
        let r := penalize policy downgrade2 p i
        (r.1 :: ps, r.2)
      else (p :: ps, .initialCodePt)
    else
      let r := applyPolicer policy downgrade2 i ps
      (p :: r.1, r.2)

end SFDPolicy

/-- The tables of an edge queue. All policies of a type share one object, and so its flow table. -/
structure PolicyClassifier where
  policyTable : List PolicyTableEntry
  policerTable : List PolicerTableEntry
  flow_table : List FlowEntry

namespace PolicyClassifier

/-- `ANY_HOST` -/
def anyHost : ℤ := -1

/-- The entry of `getPolicyTableEntry` for a source and a destination. -/
def Matches (source dest : ℤ) (p : PolicyTableEntry) : Prop :=
  (p.sourceNode = source ∨ p.sourceNode = anyHost) ∧ (p.destNode = dest ∨ p.destNode = anyHost)

instance (source dest : ℤ) : DecidablePred (Matches source dest) := fun _ =>
  inferInstanceAs (Decidable (_ ∧ _))

def getPolicyTableEntry (s : PolicyClassifier) (source dest : ℤ) : Option ℕ :=
  s.policyTable.findIdx? fun p => Matches source dest p

def getPolicerTableEntry (s : PolicyClassifier) (policy_index : PolicyType) (oldCodePt : ℤ) :
    Option PolicerTableEntry :=
  s.policerTable.find? fun p => p.policy_index = policy_index ∧ p.initialCodePt = oldCodePt

/-- `applyMeter` and `applyPolicer` of the policy's type. -/
def apply (policy : PolicyTableEntry) (policer : PolicerTableEntry) (flow_table : List FlowEntry)
    (i : PolicyInput) : PolicyTableEntry × List FlowEntry × Marking :=
  match policy.policy_index with
  | .Null => (NullPolicy.applyMeter policy i, flow_table, .initialCodePt)
  | .TSW2CM =>
    let policy := tswTagger policy i
    (policy, flow_table, TSW2CMPolicy.applyPolicer policy i)
  | .TSW3CM =>
    let policy := tswTagger policy i
    (policy, flow_table, TSW3CMPolicy.applyPolicer policy i)
  | .TB =>
    let r := TBPolicy.applyPolicer (TBPolicy.applyMeter policy i) i
    (r.1, flow_table, r.2)
  | .SRTCM =>
    let r := SRTCMPolicy.applyPolicer (SRTCMPolicy.applyMeter policy i) i
    (r.1, flow_table, r.2)
  | .TRTCM =>
    let r := TRTCMPolicy.applyPolicer (TRTCMPolicy.applyMeter policy i) i
    (r.1, flow_table, r.2)
  | .SFD =>
    let r := SFDPolicy.applyPolicer policy policer.downgrade2 i (SFDPolicy.applyMeter flow_table i)
    (policy, r.1, r.2)

/-- The code point of a packet, with the policy that gave it and which of its code points it is. -/
structure Mark where
  policy : ℕ
  marking : Marking
  codePt : ℤ
  deriving DecidableEq

/-- `none` if there is no policy or no policer, where the program ends. -/
def mark (s : PolicyClassifier) (i : PolicyInput) : Option (PolicyClassifier × Mark) :=
  (s.getPolicyTableEntry i.saddr i.daddr).bind fun k =>
    (s.policyTable[k]?).bind fun policy =>
      (s.getPolicerTableEntry policy.policy_index policy.codePt).map fun policer =>
        let r := apply policy policer s.flow_table i
        ({ s with
          policyTable := s.policyTable.set k r.1
          flow_table := r.2.1 }, ⟨k, r.2.2, policer.point r.2.2⟩)

end PolicyClassifier

end Ns2
