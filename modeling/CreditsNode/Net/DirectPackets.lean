import CreditsNode.Csnode.OPackStream

/-!
# Packets that are acknowledged

A packet that is sent to one node is registered under its hash. It is compressed on the way if its
flag asks for it and this makes it shorter. The receiver returns the hash of what it has decoded,
and the packet registered under this hash is not sent again. LZ4 is a parameter.
-/

namespace CreditsNode

open ByteCodec Effect

def BaseFlags.compressed : UInt8 := 8

/-- `LZ4_compress_default` and `LZ4_decompress_safe`, for the bytes and the room for the result; a
result that is not positive is `none`. -/
structure Lz4 where
  compress : Bytes → Nat → Option Bytes
  decompress : Bytes → Nat → Option Bytes
  decompress_compress : ∀ {data bytes room}, compress data room = some bytes →
    ∀ room', data.length ≤ room' → decompress bytes room' = some data

namespace Packet

variable (lz4 : Lz4) (p : Packet)

def isCompressed : Except Fault Bool := p.checkFlag BaseFlags.compressed

def getHash (crypto : Crypto) : Hash := crypto.calculateHash p.region

/-- `*source &= ~BaseFlags::Compressed`. -/
def clearCompressed : Packet := ⟨p.region.modifyHead (· &&& ~~~BaseFlags.compressed)⟩

/-- The bytes are copied to the buffer for sending. -/
def copy : Except Fault (Bytes × Packet) :=
  if p.size ≤ maxSize then .ok (p.region, p) else .error .undefined

/-- `encode`: the bytes to send, and the packet after it. -/
def encode : Except Fault (Bytes × Packet) := do
  if p.size = 0 then return ([], p)
  else if ← p.isCompressed then
    let headerSize := (← p.getHeadersLength).toNat
    match lz4.compress (p.region.drop headerSize) (maxSize - headerSize) with
    | none => p.clearCompressed.copy
    | some bytes =>
      if 0 < bytes.length ∧ bytes.length < p.size - headerSize then
        return (p.region.take headerSize ++ bytes, p)
      else p.clearCompressed.copy
  else p.copy

/-- `decode` of the bytes that were received, with the size set to its result. -/
def decode : Except Fault Packet := do
  if p.size = 0 then return p
  else if ← p.isCompressed then
    let headerSize := (← p.getHeadersLength).toNat
    if p.size ≤ headerSize then return ⟨[]⟩
    else
      match lz4.decompress (p.region.drop headerSize) (maxSize - headerSize) with
      | none => return ⟨[]⟩
      | some data =>
        if 0 < data.length ∧ data.length ≤ maxSize - headerSize then
          return (Packet.mk (p.region.take headerSize ++ data)).clearCompressed
        else return ⟨[]⟩
  else return p

end Packet

/-- `DirectPackInfo`, without the connection and the times. -/
structure DirectPackInfo where
  pack : Option Packet := none
  received : Bool := false
  attempts : UInt32 := 0

def maxRememberPackets : Nat := 100000

instance factMaxRememberPackets : Fact (0 < maxRememberPackets) := ⟨Nat.succ_pos 99999⟩

/-- `msgDirects_`. -/
abbrev MsgDirects := FifoMap Hash DirectPackInfo maxRememberPackets

namespace MsgDirects

variable (m : MsgDirects)

def registerDirect (crypto : Crypto) (p : Packet) : MsgDirects :=
  (m.tryStore (p.getHash crypto) {}).modify (p.getHash crypto) ({ · with pack := some p })

/-- What `gotPackInform` does with the hash of a neighbour. -/
def neighbourHasPacket (hash : Hash) : MsgDirects :=
  (m.tryStore hash {}).modify hash ({ · with received := true })

end MsgDirects

def maxResendTimes : UInt32 := 4

/-- Whether `dispatch` sends the packet. -/
def DirectPackInfo.dispatch (dp : DirectPackInfo) : Bool :=
  !(dp.received || dp.attempts > maxResendTimes)

end CreditsNode
