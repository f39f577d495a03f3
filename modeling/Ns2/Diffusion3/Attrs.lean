import Ns2.Lib.ByteRecords

/-! Attributes of the diffusion protocol, and how they are packed into a packet and unpacked. -/

namespace Ns2

open ByteRecords

/-- The bytes of a word in reverse, on a host with the low byte first. -/
def htonl (v : BitVec 32) : BitVec 32 :=
  v.extractLsb' 0 8 ++ v.extractLsb' 8 8 ++ v.extractLsb' 16 8 ++ v.extractLsb' 24 8

def htons (v : BitVec 16) : BitVec 16 := v.extractLsb' 0 8 ++ v.extractLsb' 8 8

def ntohl (v : BitVec 32) : BitVec 32 := htonl v

def ntohs (v : BitVec 16) : BitVec 16 := htons v

theorem ntohl_htonl (v : BitVec 32) : ntohl (htonl v) = v := by
  apply BitVec.eq_of_getLsbD_eq
  intro i hi
  simp only [ntohl, htonl, BitVec.getLsbD_append, BitVec.getLsbD_extractLsb']
  grind

theorem ntohs_htons (v : BitVec 16) : ntohs (htons v) = v := by
  apply BitVec.eq_of_getLsbD_eq
  intro i hi
  simp only [ntohs, htons, BitVec.getLsbD_append, BitVec.getLsbD_extractLsb']
  grind

/-- `val_` has the bytes that the pointer leads to. -/
structure NRAttribute where
  key_ : BitVec 32
  type_ : BitVec 8
  op_ : BitVec 8
  len_ : BitVec 16
  val_ : List Byte
  deriving DecidableEq

namespace NRAttribute

def INT32_TYPE : BitVec 8 := 0
def FLOAT32_TYPE : BitVec 8 := 1
def FLOAT64_TYPE : BitVec 8 := 2
def STRING_TYPE : BitVec 8 := 3
def BLOB_TYPE : BitVec 8 := 4

/-- Lengths are not negative here. -/
def getLen (a : NRAttribute) : ℕ := a.len_.toNat

/-- `NRSimpleAttribute<T>` of a number type, with the bytes of the number. -/
def number (key : BitVec 32) (type op : BitVec 8) (val : List Byte) : NRAttribute :=
  ⟨key, type, op, BitVec.ofNat 16 val.length, val⟩

/-- `NRSimpleAttribute<char *>`, with the characters before the zero. -/
def string (key : BitVec 32) (op : BitVec 8) (val : List Byte) : NRAttribute :=
  ⟨key, STRING_TYPE, op, BitVec.ofNat 16 (val.length + 1), val ++ [0]⟩

/-- `NRSimpleAttribute<void *>` -/
def blob (key : BitVec 32) (op : BitVec 8) (val : List Byte) : NRAttribute :=
  ⟨key, BLOB_TYPE, op, BitVec.ofNat 16 val.length, val⟩

/-- What the constructors of the five types build, from values shorter than 2 ^ 15 bytes. -/
inductive Built : NRAttribute → Prop
  | int32 (key op val) : Built (number key INT32_TYPE op (leBytes val))
  | float32 (key op val) (h : val.length = 4) : Built (number key FLOAT32_TYPE op val)
  | float64 (key op val) (h : val.length = 8) : Built (number key FLOAT64_TYPE op val)
  | string (key op val) (h : ∀ b ∈ val, b ≠ 0) (hlen : val.length + 1 < 2 ^ 15) :
      Built (string key op val)
  | blob (key op val) (hlen : val.length < 2 ^ 15) : Built (blob key op val)

end NRAttribute

/-- An attribute of one of the five types. -/
abbrev DiffAttr := { a : NRAttribute // a.Built }

/-- `sizeof(PackedAttribute)`: the key in bytes 0 to 3, the type in 4, the operator in 5, the length
in 6 and 7, and the first word of the value. -/
def sizeofPacked : ℕ := 12

/-- `sizeof(struct hdr_diff)` -/
def sizeofHdr : ℕ := 24

def padOf (attr_len : ℕ) : ℕ := if attr_len % 4 ≠ 0 then 4 - attr_len % 4 else 0

/-- The way from one packed attribute to the next. -/
def packedStep (attr_len : ℕ) : ℕ := sizeofPacked - 4 + attr_len + padOf attr_len

def CalculateSize : List NRAttribute → ℕ
  | [] => 0
  | a :: as => packedStep a.getLen + CalculateSize as

/-- The number of words that are allocated. -/
def AllocateBuffer (attrs : List NRAttribute) : ℕ := 1 + (CalculateSize attrs + sizeofHdr) / 4

def putByte (m : Memory) (off : ℕ) (b : Byte) : Memory := putBytes m off [b]

/-- `*(int *) val_` -/
def getVal (a : NRAttribute) : BitVec 32 := word (fun i => a.val_.getD i 0) 0

def packValue (m : Memory) (cur : ℕ) (a : NRAttribute) : Memory :=
  if 0 < a.getLen then
    if a.type_ = NRAttribute.INT32_TYPE then putWord m (cur + 8) (htonl (getVal a))
    else putBytes m (cur + 8) (a.val_.take a.getLen)
  else m

def packAttr (m : Memory) (cur : ℕ) (a : NRAttribute) : Memory :=
  let m := putWord m cur (htonl a.key_)
  let m := putByte m (cur + 4) a.type_
  let m := putByte m (cur + 5) a.op_
  let m := putHalf m (cur + 6) (htons a.len_)
  packValue m cur a

/-- The memory, and the length that is returned. -/
def PackAttrs : List NRAttribute → Memory → ℕ → Memory × ℕ
  | [], m, _ => (m, 0)
  | a :: as, m, cur =>
    let r := PackAttrs as (packAttr m cur a) (cur + packedStep a.getLen)
    (r.1, packedStep a.getLen + r.2)

/-- `none` if no zero is found in the next `limit` bytes, which is where the memory ends. -/
def strlen (m : Memory) (off limit : ℕ) : Option ℕ :=
  (List.range limit).find? fun k => m (off + k) = 0

open NRAttribute in
/-- The attribute at `cur`, if its type is known. -/
def unpackAttr (m : Memory) (limit cur : ℕ) : Option (Option NRAttribute) :=
  let key := ntohl (word m cur)
  let type := m (cur + 4)
  let op := m (cur + 5)
  if type = INT32_TYPE then
    some (some (number key INT32_TYPE op (leBytes (ntohl (word m (cur + 8))))))
  else if type = FLOAT32_TYPE then
    some (some (number key FLOAT32_TYPE op (bytes m (cur + 8) 4)))
  else if type = FLOAT64_TYPE then
    some (some (number key FLOAT64_TYPE op (bytes m (cur + 8) 8)))
  else if type = STRING_TYPE then
    (strlen m (cur + 8) limit).map fun n => some (string key op (bytes m (cur + 8) n))
  else if type = BLOB_TYPE then
    some (some (blob key op (bytes m (cur + 8) (ntohs (half m (cur + 6))).toNat)))
  else some none

def unpackFrom (m : Memory) (limit : ℕ) : ℕ → ℕ → Option (List NRAttribute)
  | 0, _ => some []
  | n + 1, cur => do
    let a ← unpackAttr m limit cur
    let rest ← unpackFrom m limit n (cur + packedStep (ntohs (half m (cur + 6))).toNat)
    some (a.toList ++ rest)

def UnpackAttrs (m : Memory) (limit num_attr : ℕ) : Option (List NRAttribute) :=
  unpackFrom m limit num_attr sizeofHdr

end Ns2
