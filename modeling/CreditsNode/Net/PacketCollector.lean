import CreditsNode.System.Common
import CreditsNode.Lib.Effect
import CreditsNode.Lib.FifoMap

/-!
# Packets and messages of several packets

A message that does not fit in one packet is sent in fragments. The header of a fragment has its
number, the number of all fragments, the identifier of the message and its sender; the hash of a
part of the header tells which message it belongs to. `PacketCollector` keeps at most
`MaxParallelCollections` unfinished messages.

The header is read without a test of its size: what lies beyond the end of the region is undefined.
-/

namespace CreditsNode

open ByteCodec Effect

namespace BaseFlags

def networkMsg : UInt8 := 1
def fragmented : UInt8 := 2
def broadcast : UInt8 := 4
def direct : UInt8 := 64

end BaseFlags

namespace Offsets

def fragmentId : Nat := 1
def fragmentsNum : Nat := 3

end Offsets

def fragmentedHeader : Nat := 36

/-- `Packet`, with the bytes of its region. -/
structure Packet where
  region : Bytes
deriving DecidableEq

namespace Packet

variable (p : Packet)

def size : Nat := p.region.length

def read (offset length : Nat) : Except Fault Bytes :=
  if offset + length ≤ p.size then .ok ((p.region.drop offset).take length) else .error .undefined

def flags (p : Packet) : Except Fault UInt8 :=
  match p.region with
  | [] => .error .undefined
  | flags :: _ => .ok flags

def checkFlag (flag : UInt8) : Except Fault Bool := do
  return (← p.flags) &&& flag ≠ 0

def isNetwork (p : Packet) : Except Fault Bool := p.checkFlag BaseFlags.networkMsg
def isFragmented (p : Packet) : Except Fault Bool := p.checkFlag BaseFlags.fragmented

def getU16 (offset : Nat) : Except Fault UInt16 := do
  return UInt16.ofNat (leNat (← p.read offset 2))

def getFragmentId (p : Packet) : Except Fault UInt16 := p.getU16 Offsets.fragmentId
def getFragmentsNum (p : Packet) : Except Fault UInt16 := p.getU16 Offsets.fragmentsNum

def getHeaderHash (crypto : Crypto) (p : Packet) : Except Fault Hash := do
  return crypto.calculateHash (← p.read Offsets.fragmentsNum fragmentedHeader)

/-- `calculateHeadersLength`, which depends on the flags alone. -/
def headersLength (flags : UInt8) : UInt32 :=
  let length : UInt32 := 1
  let length := if flags &&& BaseFlags.fragmented ≠ 0 then length + (2 + 2) else length
  if flags &&& BaseFlags.networkMsg ≠ 0 then length
  else
    -- the key of the sender and the identifier, and the key of the receiver if there is one
    let length := length + (32 + 8)
    if flags &&& BaseFlags.broadcast ≠ 0 ∨ flags &&& BaseFlags.direct ≠ 0 then length
    else length + 32

def getHeadersLength : Except Fault UInt32 := do
  return headersLength (← p.flags)

def hasValidFragmentation : Except Fault Bool := do
  if ← p.isFragmented then
    let fragment ← p.getFragmentId
    let count ← p.getFragmentsNum
    return !(count = 0 || fragment ≥ count)
  else return true

/-- What `isHeaderValid` tests of a fragment. -/
def isFragmentValid : Except Fault Bool := do
  if ← p.isFragmented then
    if ← p.isNetwork then return false
    else p.hasValidFragmentation
  else return true

def isHeaderValid : Except Fault Bool := do
  if ← p.isFragmentValid then
    return !(p.size ≤ (← p.getHeadersLength).toNat)
  else return false

end Packet

/-- `Message`: a packet that has not arrived is `none`. -/
structure Message where
  packetsLeft : UInt32
  packetsTotal : UInt32
  maxFragment : UInt16
  packets : List (Option Packet)
  headerHash : Hash
  fullData : Option Bytes

namespace Message

def start (fragmentsNum : UInt16) (headerHash : Hash) : Message where
  packetsLeft := fragmentsNum.toUInt32
  packetsTotal := fragmentsNum.toUInt32
  maxFragment := 0
  packets := List.replicate fragmentsNum.toNat none
  headerHash := headerHash
  fullData := none

variable (m : Message)

def isComplete : Bool := m.packetsLeft = 0

/-- A message that has been dropped gets its places back. -/
def resume : Message :=
  if m.packets.length = 0 then
    { m with packets := List.replicate m.packetsTotal.toNat none }
  else m

/-- The packet is put in its place, if this is still free. -/
def place (pack : Packet) (fragmentId fragmentsNum : UInt16) : Except Fault Message :=
  match m.packets[fragmentId.toNat]? with
  | none => .error .undefined
  | some (some _) => .ok m
  | some none => .ok { m with
      maxFragment := max fragmentsNum m.maxFragment
      packetsLeft := m.packetsLeft - 1
      packets := m.packets.set fragmentId.toNat (some pack) }

/-- A packet of the message; one that has not arrived has no region. -/
def getPacket (i : Nat) : Except Fault Packet :=
  match m.packets[i]? with
  | some (some pack) => .ok pack
  | _ => .error .undefined

/-- `totalSize` in `composeFullData`. -/
def totalSize (headersLength : UInt32) (packs : List Packet) : UInt32 :=
  packs.foldl (fun total pack =>
    total + (UInt64.ofNat pack.size - headersLength.toUInt64).toUInt32) headersLength

/-- What is copied from a packet: all of the first one, and the others without their headers. -/
def part (headersLength : UInt32) (packs : List Packet) (i : Nat) : Except Fault Bytes := do
  match packs[i]? with
  | none => throw .undefined
  | some pack =>
    let headerSize : UInt32 := if i = 0 then 0 else headersLength
    let cSize := UInt32.ofNat pack.size - headerSize
    pack.read headerSize.toNat cSize.toNat

def composeFullData : Except Fault Message := do
  let first ← m.getPacket 0
  if ← first.isFragmented then
    let headersLength ← first.getHeadersLength
    let packs ← (List.range m.packets.length).mapM m.getPacket
    let parts ← (List.range packs.length).mapM (part headersLength packs)
    -- the parts are copied to a region of the computed size
    if (totalSize headersLength packs).toNat < parts.flatten.length then throw .undefined
    else return { m with fullData := some parts.flatten }
  else return m

end Message

def maxParallelCollections : Nat := 1024

instance factMaxParallelCollections : Fact (0 < maxParallelCollections) := ⟨Nat.succ_pos 1023⟩

/-- `PacketCollector`. -/
structure PacketCollector where
  map : FifoMap Hash (Option Message) maxParallelCollections

namespace PacketCollector

def new : PacketCollector := ⟨.empty⟩

abbrev CollectorM := EStateM Fault PacketCollector

def assign (hash : Hash) (msg : Message) (c : PacketCollector) : PacketCollector :=
  ⟨c.map.modify hash fun _ => some msg⟩

/-- The message of the packet, which is a new one if there is none, and whether it is new. -/
def lookUp (c : PacketCollector) (hash : Hash) (fragmentsNum : UInt16) : Message × Bool :=
  match c.map.find hash with
  | some (some msg) => (msg.resume, false)
  | _ => (.start fragmentsNum hash, true)

def getMessage (crypto : Crypto) (pack : Packet) : CollectorM (Option (Message × Bool)) := do
  if !(← lift pack.isFragmented) then return none
  else if !(← lift pack.hasValidFragmentation) then return none
  else
    let hash ← lift (pack.getHeaderHash crypto)
    modify fun c => ⟨c.map.tryStore hash none⟩
    let fragmentsNum ← lift pack.getFragmentsNum
    let fragmentId ← lift pack.getFragmentId
    let found := (← get).lookUp hash fragmentsNum
    modify (assign hash found.1)
    let msg ← lift (found.1.place pack fragmentId fragmentsNum)
    modify (assign hash msg)
    return some (msg, found.2)

/-- The packets come one after another. -/
def fileAll (crypto : Crypto) (packs : List Packet) : CollectorM Unit :=
  packs.forM fun pack => do
    let _ ← getMessage crypto pack

end PacketCollector

end CreditsNode
