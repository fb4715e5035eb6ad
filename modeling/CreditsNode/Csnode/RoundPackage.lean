import CreditsNode.Csnode.DataStreamEntity
import CreditsNode.Solver.TrustedStage1State

/-!
# Round packages

`cs::RoundPackage` is what the trusted nodes agree on at the end of a round: the table of the next
round, the data of the block, and the signatures. The bytes that are signed are written by
`bytesToSign` and, if there are none, by `toBinary`, which adds the signatures to them. `fromBinary`
tests some of the fields it reads, but never asks the stream whether it is valid.

The smart contract signatures and the sender, which are not encoded, are left out.
-/

namespace CreditsNode.Round

open ByteCodec Effect DataStream

/-- `cs::RoundTable`. -/
structure RoundTable where
  round : Sequence := 0
  confidants : List PublicKey := []
  /-- An empty hash is `none`. -/
  hashes : List (Option Hash) := []
deriving DecidableEq

/-- `cs::PoolMetaInfo`. -/
structure PoolMetaInfo where
  mask : Bytes := []
  timestamp : Bytes := []
  previousHash : PoolHash := none
  sequenceNumber : Sequence
  realTrustedMask : Bytes := []
deriving DecidableEq

/-- `cs::RoundPackage`. -/
structure RoundPackage where
  roundTable : RoundTable := {}
  poolMetaInfo : PoolMetaInfo
  roundSignatures : List Signature := []
  poolSignatures : List Signature := []
  trustedSignatures : List Signature := []
  binaryRepresentation : Bytes := []
  messageSize : Nat := 0
  iteration : UInt8 := 0
  subRound : UInt8 := 0
deriving DecidableEq

def RoundPackage.new (sequenceNumber : Sequence) : RoundPackage where
  poolMetaInfo := { sequenceNumber }

/-! ## Writing -/

def putArrays {n : Nat} (arrays : List (List.Vector UInt8 n)) : Bytes :=
  Entity.addSize arrays.length ++ arrays.flatMap List.Vector.toList

/-- `operator<<` for a hash. -/
def putHash (hash : Option Hash) : Bytes :=
  Entity.addVector ((hash.map List.Vector.toList).getD [])

/-- `operator<<` for a vector of hashes. -/
def putHashes (hashes : List (Option Hash)) : Bytes :=
  Entity.addSize hashes.length ++ hashes.flatMap putHash

namespace RoundPackage

/-- What `refillToSign` writes. The iteration that is written is a local variable. -/
def toSign (p : RoundPackage) : Bytes :=
  putArrays p.roundTable.confidants ++ Entity.addVector p.poolMetaInfo.realTrustedMask ++
    [p.subRound] ++ [0] ++ putHashes p.roundTable.hashes ++
      Entity.addVector p.poolMetaInfo.timestamp ++
    Entity.addVector p.poolMetaInfo.mask ++ putU64 p.poolMetaInfo.sequenceNumber ++
    putHash p.poolMetaInfo.previousHash

def refillToSign (p : RoundPackage) : RoundPackage :=
  { p with binaryRepresentation := p.toSign, messageSize := p.toSign.length }

/-- The three lists of signatures, if none of them is empty. -/
def signatures (p : RoundPackage) : Bytes :=
  if p.roundSignatures.length > 0 ∧ p.poolSignatures.length > 0 ∧
    p.trustedSignatures.length > 0 then
    putArrays p.roundSignatures ++ putArrays p.poolSignatures ++ putArrays p.trustedSignatures
  else []

/-- The second half of `toBinary`. -/
def addSignatures (p : RoundPackage) : RoundPackage :=
  if p.binaryRepresentation.length = p.messageSize then
    { p with binaryRepresentation := p.binaryRepresentation ++ p.signatures }
  else p

def filled (p : RoundPackage) : RoundPackage :=
  (if p.binaryRepresentation.length = 0 then p.refillToSign else p).addSignatures

def toBinary (p : RoundPackage) : Bytes × RoundPackage := (p.filled.binaryRepresentation, p.filled)

def bytesToSign (p : RoundPackage) : Bytes × RoundPackage :=
  (p.refillToSign.binaryRepresentation.take p.refillToSign.messageSize, p.refillToSign)

/-! ### Setters -/

def updatePoolMeta (info : PoolMetaInfo) (p : RoundPackage) : RoundPackage :=
  { p with poolMetaInfo := info }

def updateRoundTable (rt : RoundTable) (p : RoundPackage) : RoundPackage :=
  { p with roundTable := rt }

def updateRoundSignatures (signatures : List Signature) (p : RoundPackage) : RoundPackage :=
  { p with roundSignatures := signatures }

def updatePoolSignatures (signatures : List Signature) (p : RoundPackage) : RoundPackage :=
  { p with poolSignatures := signatures }

def updateTrustedSignatures (signatures : List Signature) (p : RoundPackage) : RoundPackage :=
  { p with trustedSignatures := signatures }

/-! The fields that `fromBinary` assigns. -/

def setConfidants (confidants : List PublicKey) (p : RoundPackage) : RoundPackage :=
  { p with roundTable.confidants := confidants }

def setHashes (hashes : List (Option Hash)) (p : RoundPackage) : RoundPackage :=
  { p with roundTable.hashes := hashes }

def setRealTrustedMask (mask : Bytes) (p : RoundPackage) : RoundPackage :=
  { p with poolMetaInfo.realTrustedMask := mask }

def setTimestamp (timestamp : Bytes) (p : RoundPackage) : RoundPackage :=
  { p with poolMetaInfo.timestamp := timestamp }

def setCharacteristic (mask : Bytes) (p : RoundPackage) : RoundPackage :=
  { p with poolMetaInfo.mask := mask }

def setSequenceNumber (sequenceNumber : Sequence) (p : RoundPackage) : RoundPackage :=
  { p with poolMetaInfo.sequenceNumber := sequenceNumber }

def setPreviousHash (hash : PoolHash) (p : RoundPackage) : RoundPackage :=
  { p with poolMetaInfo.previousHash := hash }

def setSubRound (subRound : UInt8) (p : RoundPackage) : RoundPackage := { p with subRound }

def setIteration (iteration : UInt8) (p : RoundPackage) : RoundPackage := { p with iteration }

end RoundPackage

/-! ## Reading -/

def trustedSize (mask : Bytes) : UInt8 := .ofNat (mask.length - mask.count kUntrustedMarker)

theorem small_byte : (1 : UInt64).toNat ≤ ptrdiffMax := by decide

def sizeofByte : ObjectSize := ⟨1, small_byte⟩
def sizeofKey : ObjectSize := ⟨32, Nat.le_of_ble_eq_true rfl⟩
def sizeofSignature : ObjectSize := ⟨64, Nat.le_of_ble_eq_true rfl⟩

/-- `sizeof(cs::TransactionsPacketHash)`. -/
def sizeofHash : Nat := 24

section Reading

variable (buffer : Buffer)

/-- An array that has been read, which has `n` bytes. -/
def arrayOf (n : Nat) (field : Bytes) : List.Vector UInt8 n :=
  ⟨field.takeD n 0, List.takeD_length _ _ _⟩

/-- `operator>>` for a vector of arrays of `n` bytes; `none` if it is left alone. -/
def parseArrays (n : Nat) (size : ObjectSize) : Parse (Option (List (List.Vector UInt8 n))) :=
  parseEntities buffer n do
    let field ← parseArray buffer size
    return arrayOf n field

def parseByte : Parse UInt8 := do
  let field ← parseValue buffer sizeofByte
  return .ofNat (leNat field)

def hashOf (bytes : Bytes) : Option Hash :=
  if h : bytes.length = 32 then some ⟨bytes, h⟩ else none

/-- `operator>>` for a hash, which stays as it is if there are no bytes. -/
def parseHash (hash : Option Hash) : Parse (Option Hash) := do
  let bytes ← parseVector buffer
  return if bytes.isEmpty then hash else hashOf bytes

/-- A field that is read, and the test that follows. -/
structure Step where
  read : RoundPackage → Parse RoundPackage
  isLegal : RoundPackage → Bool

namespace Step

def confidants : Step where
  read p := do
    let entities ← parseArrays buffer 32 sizeofKey
    return p.setConfidants (entities.getD p.roundTable.confidants)
  isLegal p := !(p.roundTable.confidants.isEmpty ||
    p.roundTable.confidants.length > Consensus.maxTrustedNodes)

def realTrustedMask : Step where
  read p := do
    let mask ← parseVector buffer
    return p.setRealTrustedMask mask
  isLegal _ := true

def subRound : Step where
  read p := do
    let subRound ← parseByte buffer
    return p.setSubRound subRound
  isLegal _ := true

def iteration : Step where
  read p := do
    let iteration ← parseByte buffer
    return p.setIteration iteration
  isLegal p := !(p.poolMetaInfo.realTrustedMask.length > Consensus.maxTrustedNodes)

def hashes : Step where
  read p := do
    let entities ← parseEntities buffer sizeofHash (parseHash buffer none)
    return p.setHashes (entities.getD p.roundTable.hashes)
  isLegal p := !(p.roundTable.hashes.length > Consensus.maxStageOneHashes * 2)

def timestamp : Step where
  read p := do
    let timestamp ← parseString buffer
    return p.setTimestamp timestamp
  isLegal p := !(p.poolMetaInfo.timestamp.length > 20)

def characteristic : Step where
  read p := do
    let mask ← parseVector buffer
    return p.setCharacteristic mask
  isLegal p := !(p.poolMetaInfo.mask.length > 1000000)

def sequenceNumber : Step where
  read p := do
    let sequenceNumber ← parseSize buffer
    return p.setSequenceNumber sequenceNumber
  isLegal p := !(p.poolMetaInfo.sequenceNumber ≠ p.roundTable.round - 1)

def previousHash : Step where
  read p := do
    let hash ← parseHash buffer p.poolMetaInfo.previousHash
    return p.setPreviousHash hash
  isLegal _ := true

/-- The number of signatures is the number of trusted nodes. -/
def isTrustedSize (p : RoundPackage) (signatures : List Signature) : Bool :=
  (trustedSize p.poolMetaInfo.realTrustedMask).toNat = signatures.length

def roundSignatures : Step where
  read p := do
    let entities ← parseArrays buffer 64 sizeofSignature
    return p.updateRoundSignatures (entities.getD p.roundSignatures)
  isLegal p := isTrustedSize p p.roundSignatures

def poolSignatures : Step where
  read p := do
    let entities ← parseArrays buffer 64 sizeofSignature
    return p.updatePoolSignatures (entities.getD p.poolSignatures)
  isLegal p := isTrustedSize p p.poolSignatures

def trustedSignatures : Step where
  read p := do
    let entities ← parseArrays buffer 64 sizeofSignature
    return p.updateTrustedSignatures (entities.getD p.trustedSignatures)
  isLegal p := isTrustedSize p p.trustedSignatures

end Step

/-- The fields in their order, up to the first one that is not legal. -/
def readSteps : List Step → RoundPackage → Parse (Bool × RoundPackage)
  | [], p => return (true, p)
  | step :: rest, p => do
    let p ← step.read p
    if !step.isLegal p then return (false, p) else readSteps rest p

def steps : List Step :=
  [.confidants buffer, .realTrustedMask buffer, .subRound buffer, .iteration buffer, .hashes buffer,
    .timestamp buffer, .characteristic buffer, .sequenceNumber buffer, .previousHash buffer,
    .roundSignatures buffer, .poolSignatures buffer, .trustedSignatures buffer]

/-- `fromBinary`: what it returns, and the package afterwards. -/
def RoundPackage.fromBinary (rNum : Sequence) (subRound : UInt8) (p : RoundPackage) :
    Except Fault (Bool × RoundPackage) :=
  match readSteps (steps buffer) { p with roundTable.round := rNum } {} with
  | .ok (true, p) _ => .ok (true, p.setSubRound subRound)
  | .ok (false, p) _ => .ok (false, p)
  | .error e _ => .error e

end Reading

end CreditsNode.Round
