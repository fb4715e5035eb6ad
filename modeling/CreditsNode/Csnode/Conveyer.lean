import CreditsNode.Csnode.TransactionsPacket
import CreditsNode.Solver.SmartContracts
import Mathlib.Data.List.AList

/-!
# The conveyer

`cs::ConveyerBase::applyCharacteristic` puts the packets that the round table lists into one block,
without the transactions whose byte in the mask of the characteristic is zero. A packet with several
signatures is the result of a contract execution: if its first transaction is accepted, its
signatures are added to the block, and its states are announced by the signal `statesCreated`.

The cache of the packets that are being sent is left out.
-/

namespace CreditsNode

open ByteCodec Effect

abbrev TransactionsPacketTable := AList fun _ : Option Hash => TransactionsPacket

/-- `cs::PoolMetaInfo`. -/
structure PoolMetaInfo where
  timestamp : Bytes
  previousHash : PoolHash
  sequenceNumber : Sequence
  realTrustedMask : Bytes

/-- `cs::ConveyerMeta`: what is kept for a round. -/
structure ConveyerMeta where
  mask : Bytes
  hashTable : TransactionsPacketTable
  /-- `roundTable.hashes`. -/
  hashes : List (Option Hash)
  invalidTransactions : TransactionsPacket

/-- What is kept for the last rounds. -/
abbrev MetaStorage (α : Type) := List (Sequence × α)

namespace MetaStorage

variable {α : Type} (storage : MetaStorage α) (round : Sequence)

def get : Option α := (storage.find? fun element => element.1 = round).map Prod.snd

/-- A write through the pointer that `get` returns. -/
def modify (f : α → α) : MetaStorage α :=
  List.modify storage (storage.findIdx fun element => element.1 = round)
    fun element => (element.1, f element.2)

end MetaStorage

/-- The parts of `cs::ConveyerBase` that a characteristic is applied to. -/
structure Conveyer where
  packetsTable : TransactionsPacketTable
  metaStorage : MetaStorage ConveyerMeta

namespace Conveyer

def getMeta (c : Conveyer) (round : Sequence) : Option ConveyerMeta :=
  MetaStorage.get c.metaStorage round

def modifyMeta (c : Conveyer) (round : Sequence) (f : ConveyerMeta → ConveyerMeta) : Conveyer :=
  { c with metaStorage := MetaStorage.modify c.metaStorage round f }

def findPacket (c : Conveyer) (hash : Option Hash) (round : Sequence) : Option TransactionsPacket :=
  match c.packetsTable.lookup hash with
  | some packet => some packet
  | none =>
    match c.getMeta round with
    | none => none
    | some element => element.hashTable.lookup hash

def removeHashesFromTable (c : Conveyer) (hashes : List (Option Hash)) : Conveyer :=
  { c with packetsTable := hashes.foldl (fun table hash => table.erase hash) c.packetsTable }

/-- The loop of `createPacket`; nothing if a packet is missing. -/
def gatherPackets (c : Conveyer) :
    List (Option Hash) → TransactionsPacket → List TransactionsPacket →
    Option (TransactionsPacket × List TransactionsPacket)
  | [], packet, smartContractPackets => some (packet, smartContractPackets)
  | hash :: hashes, packet, smartContractPackets =>
    match c.packetsTable.lookup hash with
    | none => none
    | some element =>
      c.gatherPackets hashes
        (element.transactions.foldl
          (fun packet transaction => (packet.addTransaction transaction).1) packet)
        (if element.isSmart then smartContractPackets ++ [element] else smartContractPackets)

def createPacket (c : Conveyer) (round : Sequence) :
    Option (TransactionsPacket × List TransactionsPacket) :=
  match c.getMeta round with
  | none => none
  | some element => c.gatherPackets element.hashes .new []

/-! ## The characteristic -/

/-- The local variables of `applyCharacteristic`. -/
structure Gathered where
  newPool : Pool := .new
  maskIndex : Nat := 0
  invalidTransactions : TransactionsPacket := .new
  stateTransactions : List Transaction := []
  isStateRejected : Bool := false
  hashTable : TransactionsPacketTable := ∅

/-- The block in which the execution was started. The member is not initialised, so it has an
arbitrary value if the reference is missing or invalid. -/
def smartConsensusPool (uninitialised : Sequence) (userField : Option UserField) :
    Except Fault Sequence :=
  if userField.isSome then
    (SmartContractRef.fromUserField userField).map fun reference =>
      if reference.isValid then reference.sequence else uninitialised
  else .ok uninitialised

def smartSignature (uninitialised : Sequence) (packet : TransactionsPacket)
    (stateTransaction : Transaction) : Except Fault SmartSignature :=
  (smartConsensusPool uninitialised (stateTransaction.userField TrxUf.newStateRefStart)).map
    fun smartConsensusPool =>
      { smartKey := stateTransaction.source.toPublicKey
        smartConsensusPool
        signatures := packet.signatures }

/-- The part of the loop that looks at the signatures of a contract execution. -/
def viewSmart (uninitialised : Sequence) (mask : Bytes) (packet : TransactionsPacket)
    (g : Gathered) :
    Except Fault Gathered :=
  if packet.isSmart then
    match packet.transactions with
    -- `front()` of an empty vector
    | [] => .error .undefined
    | stateTransaction :: _ => do
      let g ←
        match mask[g.maskIndex]? with
        | some verdict =>
          if verdict ≠ 0 then do
            let signature ← smartSignature uninitialised packet stateTransaction
            pure { g with newPool := g.newPool.addSmartSignature signature }
          else pure { g with isStateRejected := true }
        | none => pure g
      if !g.isStateRejected then
        return { g with stateTransactions := g.stateTransactions ++ packet.stateTransactions }
      else return g
  else return g

def viewTransaction (mask : Bytes) (g : Gathered) (transaction : Transaction) : Gathered :=
  let g :=
    match mask[g.maskIndex]? with
    | some verdict =>
      if verdict ≠ 0 then { g with newPool := g.newPool.addTransaction transaction }
      else
        { g with invalidTransactions := (g.invalidTransactions.addTransaction transaction).1 }
    | none => g
  { g with maskIndex := g.maskIndex + 1 }

def viewPacket (uninitialised : Sequence) (mask : Bytes) (packet : TransactionsPacket)
    (g : Gathered) : Except Fault Gathered := do
  let g ← viewSmart uninitialised mask packet g
  return packet.transactions.foldl (viewTransaction mask) g

/-- The loop over the hashes of the round, which is left if a packet is missing or has more
transactions than the mask has bytes. -/
def viewPackets (uninitialised : Sequence) (find : Option Hash → Option TransactionsPacket)
    (mask : Bytes) : List (Option Hash) → Gathered → Except Fault (Option Gathered)
  | [], g => return some g
  | hash :: hashes, g =>
    match find hash with
    | none => return none
    | some packet => do
      let g ← viewPacket uninitialised mask packet g
      if g.maskIndex > mask.length then return none
      else
        let hashTable :=
          if (g.hashTable.lookup hash).isSome then g.hashTable else g.hashTable.insert hash packet
        viewPackets uninitialised find mask hashes { g with hashTable }

/-- The block, completed with what the round says about it. -/
def completePool (metaPoolInfo : PoolMetaInfo) (newPool : Pool) : Pool :=
  ((((newPool.setSequence metaPoolInfo.sequenceNumber).addUserField 0
    (.string metaPoolInfo.timestamp)).addNumberTrusted
      (UInt8.ofNat metaPoolInfo.realTrustedMask.length)).addRealTrusted
        (maskToBits metaPoolInfo.realTrustedMask)).setPreviousHash metaPoolInfo.previousHash

/-- The block that is returned, the states that are announced by a signal, and the conveyer
afterwards. -/
structure Applied where
  pool : Option Pool
  statesCreated : Option (List Transaction)
  conveyer : Conveyer

def applyCharacteristic (uninitialised : Sequence) (c : Conveyer) (metaPoolInfo : PoolMetaInfo) :
    Except Fault Applied :=
  let round := metaPoolInfo.sequenceNumber
  match c.getMeta round with
  | none => return ⟨none, none, c⟩
  | some element => do
    match ← viewPackets uninitialised (c.findPacket · round) element.mask element.hashes {} with
    | none => return ⟨none, none, c.removeHashesFromTable element.hashes⟩
    | some g =>
      let c := (c.removeHashesFromTable element.hashes).modifyMeta round fun element =>
        { element with hashTable := g.hashTable, invalidTransactions := g.invalidTransactions }
      return {
        pool := some (completePool metaPoolInfo g.newPool)
        statesCreated := if g.stateTransactions.isEmpty then none else some g.stateTransactions
        conveyer := c }

end Conveyer

end CreditsNode
