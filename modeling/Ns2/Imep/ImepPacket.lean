import Ns2.Lib.ByteRecords

/-! The control packets of IMEP: the blocks that follow one another behind the header, how they are
filled from the queues, and how they are found again. -/

namespace Ns2

open ByteRecords

/-- `IMEP_HDR_LEN` -/
def imepHdrLen : ℕ := 512

/-- `sizeof(struct hdr_imep)` -/
def sizeofHdrImep : ℕ := 4

/-- `BLOCK_FLAG_ACK` -/
def blockFlagAck : BitVec 4 := 8

/-- `BLOCK_FLAG_HELLO` -/
def blockFlagHello : BitVec 4 := 4

/-- `BLOCK_FLAG_OBJECT` -/
def blockFlagObject : BitVec 4 := 2

/-- `sizeof(struct imep_ack_block)`, with the placeholder and its padding -/
def sizeofAckBlock : ℕ := 6

/-- `sizeof(struct imep_ack)` -/
def sizeofAck : ℕ := 8

/-- `sizeof(struct imep_hello_block)`, with the placeholder and its padding -/
def sizeofHelloBlock : ℕ := 6

/-- `sizeof(struct imep_hello)` -/
def sizeofHello : ℕ := 4

/-- `sizeof(struct imep_object_block)`, with the placeholder -/
def sizeofObjectBlock : ℕ := 5

/-- `IMEP_OBJECT_BLOCK_SIZE`, the offset of the placeholder -/
def imepObjectBlockSize : ℕ := 4

/-- `IMEP_OBJECT_SIZE` -/
def imepObjectSize : ℕ := 2

/-- `sizeof(struct imep_response)` -/
def sizeofResponse : ℕ := 4

/-- `PROTO_TORA` -/
def protoTora : ℕ := 2

abbrev ImepAddr := BitVec 32

structure ImepAck where
  ack_seqno : Byte
  ack_ipaddr : ImepAddr
  deriving DecidableEq

def ackCodec : Codec ImepAck where
  size _ := sizeofAck
  write m off a := putWord (Function.update m off a.ack_seqno) (off + 4) a.ack_ipaddr
  read m off := ⟨m off, word m (off + 4)⟩
  other m off a i h := by
    have h4 : i ≠ off := by simp only [sizeofAck] at h; omega
    rw [putWord, putBytes_other (by simp only [leBytes, List.length, sizeofAck] at h ⊢; omega),
      Function.update_of_ne h4]
  read_write m m' off a h := by
    have h0 : m' off = a.ack_seqno := by
      rw [h off le_rfl (by simp [sizeofAck]), putWord, putBytes_other (by omega),
        Function.update_self]
    rw [h0, word_putWord (h.mono (by omega) le_rfl)]

/-- Both a hello and a response are an address. -/
def addrCodec : Codec ImepAddr where
  size _ := 4
  write := putWord
  read := word
  other _ _ _ _ h := putBytes_other h
  read_write _ _ _ _ h := word_putWord h

/-- The data of an object, no longer than `o_length` can say. -/
def ImepObject := { data : List Byte // data.length < 2 ^ 16 }

theorem objectData_length (m : Memory) (off : ℕ) :
    (bytes m (off + imepObjectSize) (half m off).toNat).length < 2 ^ 16 := by
  rw [bytes_length]
  exact (half m off).isLt

theorem objectRead_put (m m' : Memory) (off : ℕ) (o : ImepObject)
    (h : SameOn off (off + (imepObjectSize + o.val.length))
      (putHalf (putBytes m (off + imepObjectSize) o.val) off (BitVec.ofNat 16 o.val.length)) m') :
    (⟨bytes m' (off + imepObjectSize) (half m' off).toNat, objectData_length m' off⟩ :
      ImepObject) = o := by
  have hhalf := half_putHalf (h.mono le_rfl (by simp [imepObjectSize]))
  have hlen : (half m' off).toNat = o.val.length := by
    rw [hhalf, BitVec.toNat_ofNat, Nat.mod_eq_of_lt o.property]
  apply Subtype.ext
  simp only [hlen]
  refine @bytes_putBytes m _ _ _ fun i h1 h2 => ?_
  rw [h i (by simp only [imepObjectSize] at h1; omega) (by omega), putHalf, putBytes_other]
  simp only [imepObjectSize] at h1
  simp only [List.length]
  omega

def objectCodec : Codec ImepObject where
  size o := imepObjectSize + o.val.length
  write m off o :=
    putHalf (putBytes m (off + imepObjectSize) o.val) off (BitVec.ofNat 16 o.val.length)
  read m off :=
    ⟨bytes m (off + imepObjectSize) (half m off).toNat, objectData_length m off⟩
  other m off o i h := by
    simp only [imepObjectSize] at h ⊢
    rw [putHalf, putBytes_other (by simp only [List.length]; omega), putBytes_other (by omega)]
  read_write := objectRead_put

inductive ToraType where
  | qry
  | upd
  | clr
  deriving DecidableEq

def toraHeaderLength : ToraType → ℕ
  | .qry => 8
  | .upd => 32
  | .clr => 24

/-- The header of a packet of TORA, as it lies in the memory. -/
structure ToraPacket where
  th_type : ToraType
  header : List Byte
  length : header.length = toraHeaderLength th_type

/-- `toraExtractHeader` -/
def ToraPacket.object (t : ToraPacket) : ImepObject :=
  ⟨t.header, by rw [t.length]; cases t.th_type <;> decide⟩

/-- `LINK_BI` -/
def linkBi : ℕ := 3

structure ImepLink where
  index_ : ImepAddr
  status_ : ℕ
  last_echo_ : ℚ

structure ImepPacket where
  imep_block_flags : BitVec 4
  imep_length : ℕ
  bytes : Memory

/-- A packet is allocated with zeros, and starts with nothing but its header. -/
def ImepPacket.alloc : ImepPacket := ⟨0, sizeofHdrImep, fun _ => 0⟩

structure ImepQueues where
  links : List ImepLink
  controlSequence : BitVec 32
  ackQueue : List ImepAck
  helloQueue : List ImepAddr
  objectQueue : List ToraPacket

namespace ImepPacket

/-- The outer `none` is a failed assertion. -/
def findAckBlock (p : ImepPacket) : Option (Option ℕ) :=
  if p.imep_block_flags &&& blockFlagAck = 0 then some none
  else if 0 < (p.bytes sizeofHdrImep).toNat then some (some sizeofHdrImep) else none

def findHelloBlock (p : ImepPacket) : Option (Option ℕ) :=
  if p.imep_block_flags &&& blockFlagHello = 0 then some none
  else
    (if p.imep_block_flags &&& blockFlagAck ≠ 0 then
      p.findAckBlock.bind fun ab => ab.map fun ab =>
        ab + sizeofAckBlock + (p.bytes ab).toNat * sizeofAck
    else some sizeofHdrImep).bind fun hb =>
      if 0 < (p.bytes hb).toNat then some (some hb) else none

def findObjectBlock (p : ImepPacket) : Option (Option ℕ) :=
  if p.imep_block_flags &&& blockFlagObject = 0 then some none
  else
    (if p.imep_block_flags &&& blockFlagAck ≠ 0 then
      if 0 < (p.bytes sizeofHdrImep).toNat then
        some (sizeofHdrImep + (p.bytes sizeofHdrImep).toNat * sizeofAck + sizeofAckBlock)
      else none
    else some sizeofHdrImep).bind fun hb =>
      (if p.imep_block_flags &&& blockFlagHello ≠ 0 then
        if 0 < (p.bytes hb).toNat then
          some (hb + (p.bytes hb).toNat * sizeofHello + sizeofHelloBlock)
        else none
      else some hb).bind fun ob =>
        if field p.bytes (ob + 1) 4 = protoTora ∧ 0 < field p.bytes (ob + 2) 7 then some (some ob)
        else none

/-- The objects of the block at `ob`, as `imep_object_process` walks over them. -/
def objectsAt (p : ImepPacket) (ob : ℕ) : List ImepObject :=
  objectCodec.readAll p.bytes (ob + sizeofObjectBlock) (field p.bytes (ob + 2) 7)

def findResponseList (p : ImepPacket) : Option (Option ℕ) :=
  p.findObjectBlock.map fun ob => ob.bind fun ob =>
    if field p.bytes (ob + 3) 5 = 0 then none
    else some (ob + sizeofObjectBlock + objectCodec.sizeAll (p.objectsAt ob))

/-- What the loops of the receiver read behind each of the blocks. -/
def acks (p : ImepPacket) : Option (List ImepAck) :=
  p.findAckBlock.map fun ab => ab.elim [] fun ab =>
    ackCodec.readAll p.bytes (ab + sizeofAckBlock) (p.bytes ab).toNat

def hellos (p : ImepPacket) : Option (List ImepAddr) :=
  p.findHelloBlock.map fun hb => hb.elim [] fun hb =>
    addrCodec.readAll p.bytes (hb + sizeofHelloBlock) (p.bytes hb).toNat

def objects (p : ImepPacket) : Option (List ImepObject) :=
  p.findObjectBlock.map fun ob => ob.elim [] p.objectsAt

def responders (p : ImepPacket) : Option (List ImepAddr) :=
  p.findObjectBlock.bind fun ob => p.findResponseList.map fun r => r.elim [] fun r =>
    ob.elim [] fun ob => addrCodec.readAll p.bytes r (field p.bytes (ob + 3) 5)

/-- All that is read stands in the `IMEP_HDR_LEN` bytes. -/
structure Fits (p : ImepPacket) : Prop where
  acks : ∀ ab, p.findAckBlock = some (some ab) →
    ab + sizeofAckBlock + sizeofAck * (p.bytes ab).toNat ≤ imepHdrLen
  hellos : ∀ hb, p.findHelloBlock = some (some hb) →
    hb + sizeofHelloBlock + sizeofHello * (p.bytes hb).toNat ≤ imepHdrLen
  objects : ∀ ob, p.findObjectBlock = some (some ob) →
    ob + sizeofObjectBlock + objectCodec.sizeAll (p.objectsAt ob) ≤ imepHdrLen
  responders : ∀ ob r, p.findObjectBlock = some (some ob) → p.findResponseList = some (some r) →
    r + sizeofResponse * field p.bytes (ob + 3) 5 ≤ imepHdrLen

end ImepPacket

namespace ImepQueues

def ackLoop (p : ImepPacket) (ab ack : ℕ) : List ImepAck → ImepPacket × List ImepAck
  | [] => (p, [])
  | a :: q =>
    if p.imep_length + sizeofAck > imepHdrLen then (p, a :: q)
    else
      let m := ackCodec.write p.bytes ack a
      ackLoop { p with
        imep_length := p.imep_length + sizeofAck
        bytes := Function.update m ab (m ab + 1) } ab (ack + sizeofAck) q

def aggregateAckBlock (w : ImepQueues) (p : ImepPacket) : ImepPacket × ImepQueues :=
  if w.ackQueue = [] then (p, w)
  else
    let ab := sizeofHdrImep
    let r := ackLoop
      { imep_block_flags := p.imep_block_flags ||| blockFlagAck
        imep_length := p.imep_length + sizeofAckBlock
        bytes := Function.update p.bytes ab 0 } ab (ab + sizeofAckBlock) w.ackQueue
    (r.1, { w with ackQueue := r.2 })

def findLink (links : List ImepLink) (index : ImepAddr) : Option ImepLink :=
  links.find? fun l => l.index_ = index

/-- `l->lastEcho() = CURRENT_TIME` -/
def setEcho (now : ℚ) (links : List ImepLink) (index : ImepAddr) : List ImepLink :=
  match links with
  | [] => []
  | l :: ls =>
    if l.index_ = index then { l with last_echo_ := now } :: ls else l :: setEcho now ls index

/-- The number of the hellos that are in the block is counted along. -/
def helloLoop (now : ℚ) (p : ImepPacket) (links : List ImepLink) (hello inserted_hellos : ℕ) :
    List ImepAddr → ImepPacket × List ImepLink × ℕ × List ImepAddr
  | [] => (p, links, inserted_hellos, [])
  | a :: q =>
    if p.imep_length + sizeofHello > imepHdrLen then (p, links, inserted_hellos, a :: q)
    else
      match findLink links a with
      | some l =>
        if now ≠ l.last_echo_ then
          helloLoop now { p with
            imep_length := p.imep_length + sizeofHello
            bytes := putWord p.bytes hello a } (setEcho now links a) (hello + sizeofHello)
            (inserted_hellos + 1) q
        else helloLoop now p links hello inserted_hellos q
      | none => helloLoop now p links hello inserted_hellos q

def aggregateHelloBlock (now : ℚ) (w : ImepQueues) (p : ImepPacket) : ImepPacket × ImepQueues :=
  if w.helloQueue = [] then (p, w)
  else if p.imep_length + sizeofHelloBlock + sizeofHello > imepHdrLen then (p, w)
  else
    let hb := p.imep_length
    let r := helloLoop now { p with imep_length := p.imep_length + sizeofHelloBlock } w.links
      (hb + sizeofHelloBlock) 0 w.helloQueue
    let w := { w with links := r.2.1, helloQueue := r.2.2.2 }
    if r.2.2.1 = 0 then ({ r.1 with imep_length := r.1.imep_length - sizeofHelloBlock }, w)
    else
      ({ r.1 with
        imep_block_flags := r.1.imep_block_flags ||| blockFlagHello
        bytes := Function.update r.1.bytes hb (BitVec.ofNat 8 r.2.2.1) }, w)

/-- The bi-directional neighbours, in the order of the list. -/
def biLinks (links : List ImepLink) : List ImepAddr :=
  (links.filter fun l => l.status_ = linkBi).map ImepLink.index_

def getResponseListSize (w : ImepQueues) : ℕ := (biLinks w.links).length * sizeofResponse

def objectLoop (p : ImepPacket) (response_list_len object num_objects_inserted : ℕ) :
    List ToraPacket → ImepPacket × ℕ × List ToraPacket
  | [] => (p, num_objects_inserted, [])
  | t :: q =>
    let obj_length := toraHeaderLength t.th_type
    let new_len := p.imep_length + imepObjectSize + obj_length + response_list_len
    if new_len > imepHdrLen then (p, num_objects_inserted, t :: q)
    else
      objectLoop { p with
        imep_length := p.imep_length + (imepObjectSize + obj_length)
        bytes := objectCodec.write p.bytes object t.object } response_list_len
        (object + imepObjectSize + obj_length) (num_objects_inserted + 1) q

def responseLoop (p : ImepPacket) (ob r : ℕ) : List ImepAddr → ImepPacket
  | [] => p
  | a :: l =>
    let m := setField p.bytes (ob + 3) 5 (field p.bytes (ob + 3) 5 + 1)
    responseLoop { p with
      imep_length := p.imep_length + sizeofResponse
      bytes := putWord m r a } ob (r + sizeofResponse) l

/-- `none` is a failed assertion. -/
def createResponseList (w : ImepQueues) (p : ImepPacket) : Option (ImepPacket × ImepQueues) :=
  p.findObjectBlock.bind fun ob =>
    match ob with
    | none => some (p, w)
    | some ob =>
      let w := { w with controlSequence := w.controlSequence + 1 }
      let m := Function.update p.bytes ob (w.controlSequence.setWidth 8)
      some (responseLoop { p with bytes := m } ob p.imep_length (biLinks w.links), w)

/-- `none` is a failed assertion. -/
def aggregateObjectBlock (w : ImepQueues) (p : ImepPacket) : Option (ImepPacket × ImepQueues) :=
  if w.objectQueue = [] then some (p, w)
  else if p.imep_length ≥ imepHdrLen then some (p, w)
  else
    let ob := p.imep_length
    let m := setField (setField (Function.update p.bytes ob 0) (ob + 1) 4 protoTora) (ob + 3) 5 0
    let r := objectLoop { p with imep_length := p.imep_length + imepObjectBlockSize, bytes := m }
      w.getResponseListSize (ob + sizeofObjectBlock) 0 w.objectQueue
    let w := { w with objectQueue := r.2.2 }
    if r.1.imep_length ≤ imepHdrLen then
      if r.2.1 = 0 then some ({ r.1 with imep_length := r.1.imep_length - imepObjectBlockSize }, w)
      else
        w.createResponseList
          { r.1 with
            imep_block_flags := r.1.imep_block_flags ||| blockFlagObject
            bytes := setField r.1.bytes (ob + 2) 7 r.2.1 }
    else none

/-- The packet that `handlerControlTimer` makes. -/
def makePacket (now : ℚ) (w : ImepQueues) : Option (ImepPacket × ImepQueues) :=
  let r := w.aggregateAckBlock .alloc
  let r := r.2.aggregateHelloBlock now r.1
  r.2.aggregateObjectBlock r.1

end ImepQueues

end Ns2
