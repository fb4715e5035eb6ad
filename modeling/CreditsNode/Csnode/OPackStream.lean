import CreditsNode.Csnode.IPackStream
import CreditsNode.Net.PacketCollector

/-!
# Writing a message

`cs::OPackStream`: what is written goes to one packet after another; a new one is made as soon as
the last one is full and something is left, also in the middle of a value. All packets have the
headers of the first one, with a number of their own; if the first one was not marked as fragmented,
it is marked then and its content is moved to make room for the numbers. The number of packets is
written to all of them at the end.

Copying bytes that have not been written is undefined behaviour. The packets are a list, though the
source has an array of 200000 of them.
-/

namespace CreditsNode

open ByteCodec Effect

namespace Packet

def maxSize : Nat := 1024

def getMsg (p : Packet) : Except Fault Bytes := do
  let headersLength ← p.getHeadersLength
  if p.size < headersLength.toNat then throw .undefined
  else return p.region.drop headersLength.toNat

def setU16 (offset : Nat) (value : UInt16) (p : Packet) : Packet :=
  ⟨p.region.take offset ++ (leBytes 2 value.toNat ++ p.region.drop (offset + 2))⟩

end Packet

/-- `OPackStream`: the packets of the message that is being written. -/
structure OPackStream where
  senderKey : PublicKey
  id : UInt64 := 0
  packets : List Packet := []
  packetsCount : UInt16 := 0
  finished : Bool := false

namespace OPackStream

variable (s : OPackStream)

def current : Except Fault Packet :=
  match s.packets.getLast? with
  | none => .error .undefined
  | some pack => .ok pack

/-- `end_ - ptr_`. -/
def left : Except Fault Nat := do
  return Packet.maxSize - (← s.current).size

/-- The bytes are copied to where the pointer stands. -/
def put (bytes : Bytes) (s : OPackStream) : Except Fault OPackStream := do
  let pack ← s.current
  if pack.size + bytes.length ≤ Packet.maxSize then
    return { s with packets := s.packets.dropLast ++ [⟨pack.region ++ bytes⟩] }
  else throw .undefined

/-! ## New packets -/

/-- The numbers of the fragment and of the fragments. -/
def insertedSize : Nat := 2 + 2

def correct (first : Packet) : Except Fault (Packet × Bytes) := do
  if ← first.isFragmented then return (first, [])
  else if first.size < Packet.maxSize then throw .undefined
  else
    let flags ← first.flags
    let shifted := first.region.drop 1
    let shiftedSize := shifted.length
    let kept := shifted.take (shiftedSize - insertedSize)
    let tail := shifted.drop (shiftedSize - insertedSize)
    return (⟨(flags ||| BaseFlags.fragmented) :: (leBytes 2 0 ++ (leBytes 2 0 ++ kept))⟩, tail)

/-- The first packet of several, and what does not fit in it any more. -/
def correctFirst (first : Packet) (s : OPackStream) : Except Fault (Packet × Bytes) :=
  if s.packetsCount = 1 then correct first else .ok (first, [])

def nextPack (first : Packet) (id : UInt16) (tail : Bytes) : Except Fault Packet := do
  let headersLength ← first.getHeadersLength
  let headers ← first.read 0 headersLength.toNat
  let pack := Packet.setU16 Offsets.fragmentId id ⟨headers⟩
  if pack.size + tail.length ≤ Packet.maxSize then return ⟨pack.region ++ tail⟩
  else throw .undefined

def newPack : Except Fault OPackStream :=
  match s.packets with
  | [] => .ok { s with packets := [⟨[]⟩], packetsCount := s.packetsCount + 1 }
  | first :: rest => do
    let corrected ← s.correctFirst first
    let pack ← nextPack corrected.1 s.packetsCount corrected.2
    return { s with
      packets := corrected.1 :: (rest ++ [pack])
      packetsCount := s.packetsCount + 1 }

/-! ## Values -/

/-- `operator<<` for a type of a fixed size. -/
def putValue (value : Bytes) (s : OPackStream) : Except Fault OPackStream := do
  let left ← s.left
  if value.length ≤ left then s.put value
  else
    let s ← s.put (value.take left)
    let s ← s.newPack
    s.put (value.drop left)

def provide : Except Fault OPackStream := do
  let left ← s.left
  if left = 0 then s.newPack else return s

def insertLoop : Nat → Bytes → OPackStream → Except Fault OPackStream
  | _, [], s => .ok s
  | 0, _ :: _, _ => .error .outOfFuel
  | fuel + 1, bytes@(_ :: _), s => do
    let s ← s.provide
    let left ← s.left
    let toPut := min left bytes.length
    let s ← s.put (bytes.take toPut)
    insertLoop fuel (bytes.drop toPut) s

/-- `insertBytes`. Every caller casts the size to 32 bits. -/
def insertBytes (bytes : Bytes) (s : OPackStream) : Except Fault OPackStream :=
  let size := bytes.length % 2 ^ 32
  insertLoop size (bytes.take size) s

/-- The values that can be written. -/
inductive Value where
  /-- A value of at most eight bytes. -/
  | scalar (data : Bytes) (small : data.length ≤ 8)
  | array (data : Bytes)
  | string (data : Bytes)
  | bytes (data : Bytes)

namespace Value

/-- `operator<<`. -/
def write : Value → Except Fault OPackStream
  | scalar data _ => s.putValue data
  | array data => s.insertBytes data
  | string data | bytes data => do
    let s ← s.putValue (putU64 (.ofNat data.length))
    s.insertBytes data

def encode : Value → Bytes
  | scalar data _ | array data => data
  | string data | bytes data => putU64 (.ofNat data.length) ++ data

def data : Value → Bytes
  | scalar data _ | array data | string data | bytes data => data

def sizeofScalar {data : Bytes} (small : data.length ≤ 8) : ObjectSize where
  value := .ofNat data.length
  small := (Nat.mod_le _ _).trans (small.trans (Nat.le_of_ble_eq_true rfl))

/-- `operator>>` to a variable of the type of the value. -/
def extract (buffer : Buffer) : Value → IPackStream.Extract (Option Bytes)
  | scalar _ small => IPackStream.extractValue buffer (sizeofScalar small)
  | array data => IPackStream.extractArray buffer (.ofNat data.length)
  | string _ | bytes _ => IPackStream.extractBytes buffer

end Value

def writeAll (values : List Value) (s : OPackStream) : Except Fault OPackStream :=
  values.foldlM Value.write s

/-! ## The beginning and the end -/

def clear : OPackStream :=
  { s with packets := [], packetsCount := 0, finished := false }

def putNumbers (flags : UInt8) (s : OPackStream) : Except Fault OPackStream := do
  if flags &&& BaseFlags.fragmented ≠ 0 then
    let s ← s.putValue (leBytes 2 0)
    s.putValue (leBytes 2 s.packetsCount.toNat)
  else return s

def putSender (flags : UInt8) (s : OPackStream) : Except Fault OPackStream := do
  if flags &&& BaseFlags.networkMsg = 0 then
    let s ← s.putValue (putU64 s.id)
    s.insertBytes s.senderKey.toList
  else return s

def init (flags : UInt8) (s : OPackStream) : Except Fault OPackStream := do
  let s ← newPack { s.clear with id := s.id + 1 }
  let s ← s.put [flags]
  let s ← s.putNumbers flags
  s.putSender flags

def initReceiver (flags : UInt8) (receiver : PublicKey) (s : OPackStream) :
    Except Fault OPackStream := do
  let s ← s.init flags
  s.insertBytes receiver.toList

/-- `init` with a receiver or without one. -/
structure Start where
  flags : UInt8
  receiver : Option PublicKey

def Start.init (start : Start) (s : OPackStream) : Except Fault OPackStream :=
  match start.receiver with
  | none => s.init start.flags
  | some receiver => s.initReceiver start.flags receiver

/-- The packets afterwards. -/
def getPackets : OPackStream :=
  if s.finished then s
  else if 1 < s.packetsCount then
    { s with
      packets := s.packets.map (Packet.setU16 Offsets.fragmentsNum s.packetsCount)
      finished := true }
  else { s with finished := true }

end OPackStream

/-- `stream >> a >> b >> …`, to new variables of the types of the values. -/
def IPackStream.extractAll (buffer : Buffer) :
    List OPackStream.Value → IPackStream.Extract (List Bytes)
  | [] => return []
  | value :: rest => do
    let data ← value.extract buffer
    let others ← extractAll buffer rest
    return data.getD [] :: others

end CreditsNode
