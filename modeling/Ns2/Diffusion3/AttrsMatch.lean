import Ns2.Diffusion3.Attrs

/-! The comparisons of attributes and the matching of attribute vectors (nr.cc, nr.hh, attrs.cc). -/

namespace Ns2

open ByteRecords

/-- `strncmp`, as far as the bytes go. -/
def strncmp : ℕ → List Byte → List Byte → Ordering
  | n + 1, x :: xs, y :: ys =>
    if x = y then if x = 0 then .eq else strncmp n xs ys else compare x y
  | _, _, _ => .eq

def strcmp : List Byte → List Byte → Ordering
  | x :: xs, y :: ys => if x = y then if x = 0 then .eq else strcmp xs ys else compare x y
  | _, _ => .eq

def memcmp : ℕ → List Byte → List Byte → Ordering
  | n + 1, x :: xs, y :: ys => if x = y then memcmp n xs ys else compare x y
  | _, _, _ => .eq

/-! A floating-point number is its sign bit and its magnitude, and no number when the magnitude is
above that of infinity. -/

section Float

variable {w : ℕ}

def magnitude (v : BitVec w) : ℕ := v.toNat % 2 ^ (w - 1)

def ordinal (v : BitVec w) : ℤ := if v.msb then -(magnitude v : ℤ) else magnitude v

def isNaN (inf : ℕ) (v : BitVec w) : Bool := decide (inf < magnitude v)

def comparable (inf : ℕ) (v u : BitVec w) : Bool := !isNaN inf v && !isNaN inf u

def INF32 : ℕ := 0x7f800000

def INF64 : ℕ := 0x7ff0000000000000

end Float

namespace NRAttribute

def IS : BitVec 8 := 0
def LE : BitVec 8 := 1
def GE : BitVec 8 := 2
def LT : BitVec 8 := 3
def GT : BitVec 8 := 4
def EQ : BitVec 8 := 5
def NE : BitVec 8 := 6
def EQ_ANY : BitVec 8 := 7

/-- `*(double *) val_`, as bits. -/
def getVal64 (a : NRAttribute) : BitVec 64 :=
  word (fun i => a.val_.getD i 0) 4 ++ word (fun i => a.val_.getD i 0) 0

def isSameKey (a b : NRAttribute) : Bool := decide (a.type_ = b.type_) && decide (a.key_ = b.key_)

/-- `none` is an abort. -/
def isEQ (a b : NRAttribute) : Option Bool :=
  if !a.isSameKey b then none
  else if a.type_ = INT32_TYPE then some (decide ((getVal a).toInt = (getVal b).toInt))
  else if a.type_ = FLOAT32_TYPE then
    some (comparable INF32 (getVal a) (getVal b) &&
      decide (ordinal (getVal a) = ordinal (getVal b)))
  else if a.type_ = FLOAT64_TYPE then
    some (comparable INF64 a.getVal64 b.getVal64 &&
      decide (ordinal a.getVal64 = ordinal b.getVal64))
  else if a.type_ = STRING_TYPE then
    some (if a.getLen ≠ b.getLen then false else strncmp a.getLen a.val_ b.val_ == .eq)
  else if a.type_ = BLOB_TYPE then
    some (if a.getLen ≠ b.getLen then false else memcmp a.getLen a.val_ b.val_ == .eq)
  else none

def isGT (a b : NRAttribute) : Option Bool :=
  if !a.isSameKey b then none
  else if a.type_ = INT32_TYPE then some (decide ((getVal a).toInt > (getVal b).toInt))
  else if a.type_ = FLOAT32_TYPE then
    some (comparable INF32 (getVal a) (getVal b) &&
      decide (ordinal (getVal a) > ordinal (getVal b)))
  else if a.type_ = FLOAT64_TYPE then
    some (comparable INF64 a.getVal64 b.getVal64 &&
      decide (ordinal a.getVal64 > ordinal b.getVal64))
  else if a.type_ = STRING_TYPE then
    some (strncmp (min a.getLen b.getLen) a.val_ b.val_ != .eq)
  else if a.type_ = BLOB_TYPE then
    let cmp := memcmp (min a.getLen b.getLen) a.val_ b.val_
    some (if cmp = .gt then true else cmp == .eq && decide (a.getLen > b.getLen))
  else none

def isGE (a b : NRAttribute) : Option Bool :=
  if !a.isSameKey b then none
  else if a.type_ = INT32_TYPE then some (decide ((getVal a).toInt ≥ (getVal b).toInt))
  else if a.type_ = FLOAT32_TYPE then
    some (comparable INF32 (getVal a) (getVal b) &&
      decide (ordinal (getVal a) ≥ ordinal (getVal b)))
  else if a.type_ = FLOAT64_TYPE then
    some (comparable INF64 a.getVal64 b.getVal64 &&
      decide (ordinal a.getVal64 ≥ ordinal b.getVal64))
  else if a.type_ = STRING_TYPE then some (strcmp a.val_ b.val_).isGE
  else if a.type_ = BLOB_TYPE then
    some (memcmp (min a.getLen b.getLen) a.val_ b.val_).isGE
  else none

def isNE (a b : NRAttribute) : Option Bool := (a.isEQ b).map (!·)

def isLT (a b : NRAttribute) : Option Bool := (a.isGE b).map (!·)

def isLE (a b : NRAttribute) : Option Bool := (a.isGT b).map (!·)

/-- The comparison that `a`'s operator asks of `b`. -/
def compareOp (a b : NRAttribute) : Option Bool :=
  if a.op_ = EQ then b.isEQ a
  else if a.op_ = GT then b.isGT a
  else if a.op_ = GE then b.isGE a
  else if a.op_ = LT then b.isLT a
  else if a.op_ = LE then b.isLE a
  else if a.op_ = NE then b.isNE a
  else some false

/-- `find_matching_key_from`, again and again, and the test of what it finds. -/
def findMatch (a : NRAttribute) : List NRAttribute → Option Bool
  | [] => some false
  | b :: rest =>
    if b.key_ ≠ a.key_ then findMatch a rest
    else if b.op_ ≠ IS then findMatch a rest
    else if a.op_ = EQ_ANY then some true
    else
      match a.compareOp b with
      | none => none
      | some true => some true
      | some false => findMatch a rest

end NRAttribute

open NRAttribute

def OneWayMatch (attr_vec2 : List NRAttribute) : List NRAttribute → Option Bool
  | [] => some true
  | a :: rest =>
    if a.op_ = IS then OneWayMatch attr_vec2 rest
    else
      match a.findMatch attr_vec2 with
      | some true => OneWayMatch attr_vec2 rest
      | r => r

def MatchAttrs (attr_vec1 attr_vec2 : List NRAttribute) : Option Bool :=
  match OneWayMatch attr_vec2 attr_vec1 with
  | some true => OneWayMatch attr_vec1 attr_vec2
  | r => r

namespace NRAttribute

/-- How the values compare, by the type of the attributes. -/
def order (a b : NRAttribute) : Ordering :=
  if a.type_ = INT32_TYPE then compare (getVal a).toInt (getVal b).toInt
  else if a.type_ = FLOAT32_TYPE then compare (ordinal (getVal a)) (ordinal (getVal b))
  else if a.type_ = FLOAT64_TYPE then compare (ordinal a.getVal64) (ordinal b.getVal64)
  else compare a.val_ b.val_

/-- The six comparisons of `a` and `b` are those of a total order. -/
def Consistent (a b : NRAttribute) : Prop :=
  ∃ lt eq gt, a.isLT b = some lt ∧ a.isEQ b = some eq ∧ a.isGT b = some gt ∧
    [lt, eq, gt].count true = 1 ∧ a.isGE b = some (gt || eq) ∧ a.isLE b = some (lt || eq) ∧
    b.isLT a = some gt

/-- No number is missing; a string is not below the other; of two blobs neither goes on where the
other ends. -/
def Orderly (a b : NRAttribute) : Prop :=
  if a.type_ = FLOAT32_TYPE then comparable INF32 (getVal a) (getVal b) = true
  else if a.type_ = FLOAT64_TYPE then comparable INF64 a.getVal64 b.getVal64 = true
  else if a.type_ = STRING_TYPE then order a b ≠ .lt
  else if a.type_ = BLOB_TYPE then a.val_ <+: b.val_ ∨ b.val_ <+: a.val_ → a.val_ = b.val_
  else True

/-- The value of `b` satisfies the operator. -/
def Satisfies (op : BitVec 8) (b a : NRAttribute) : Prop :=
  op = EQ_ANY ∨ (op = EQ ∧ order b a = .eq) ∨ (op = NE ∧ order b a ≠ .eq) ∨
    (op = GT ∧ order b a = .gt) ∨ (op = GE ∧ order b a ≠ .lt) ∨ (op = LT ∧ order b a = .lt) ∨
    (op = LE ∧ order b a ≠ .gt)

instance (op : BitVec 8) (b a : NRAttribute) : Decidable (Satisfies op b a) :=
  inferInstanceAs (Decidable (_ ∨ _))

/-- Every attribute of `v` that is not `IS` finds its match in `u`. -/
def Satisfied (v u : List NRAttribute) : Prop :=
  ∀ a ∈ v, a.op_ ≠ IS → ∃ b ∈ u, b.op_ = IS ∧ b.key_ = a.key_ ∧ Satisfies a.op_ b a

instance (v u : List NRAttribute) : Decidable (Satisfied v u) :=
  inferInstanceAs (Decidable (∀ a ∈ v, a.op_ ≠ IS → ∃ b ∈ u, _))

end NRAttribute

/-- An attribute of a key, of the type that belongs to the key. -/
abbrev KeyedAttr (types : BitVec 32 → BitVec 8) :=
  { a : NRAttribute // a.Built ∧ a.type_ = types a.key_ }

end Ns2
