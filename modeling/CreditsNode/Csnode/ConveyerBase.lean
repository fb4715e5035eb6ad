import CreditsNode.Csnode.Conveyer
import CreditsNode.Csnode.PacketQueue
import CreditsNode.Lib.MultiMap

/-!
# The conveyer from round to round

`cs::ConveyerBase` with the queue of new packets, the packets of the current round, the cache of
those that are being sent, and what is kept for the last rounds. The packets that a round lists and
that are not there are its needed hashes. A packet of this node is sent again when it has not been
applied for some rounds, and given up when it has been sent too often.

Notifications, early characteristics and the rejected packets are not part of the model.
-/

namespace CreditsNode

open ByteCodec Effect

/-- A packet that was sent and how often it was sent again. -/
structure SendCacheData where
  hash : Option Hash
  count : Nat

abbrev TransactionPacketSendCache := MultiMap Sequence SendCacheData

/-- `cs::ConveyerMeta`, with its member `neededHashes`. -/
structure RoundMeta extends ConveyerMeta where
  neededHashes : List (Option Hash)

/-- The parts of `cs::RoundTable` that the conveyer reads. -/
structure RoundTable where
  round : Sequence
  hashes : List (Option Hash)

/-- What the conveyer takes from outside. -/
structure ConveyerEnv where
  crypto : Crypto
  privateKey : Option (Bytes → Signature)
  sendCacheValue : UInt64
  /-- `conveyerData().maxResendsSendCache`. -/
  maxResends : Nat

/-- `ConveyerBase` with the members of `Impl`. -/
structure ConveyerBase where
  packetQueue : PacketQueue
  packetsTable : TransactionsPacketTable
  sendPacketsCache : TransactionPacketSendCache
  metaStorage : MetaStorage RoundMeta
  currentRound : Sequence

namespace ConveyerBase

def metaCapacity : Nat := 100
def maxPacketTransactions : Nat := 100
def maxPacketsPerRound : Nat := 10
def maxQueueSize : Nat := 1000000

/-- The meta of a round before anything is known about it. -/
def emptyMeta (hashes neededHashes : List (Option Hash)) : RoundMeta where
  mask := []
  hashTable := ∅
  hashes
  invalidTransactions := .new
  neededHashes

def new : ConveyerBase where
  packetQueue := .new maxQueueSize maxPacketTransactions maxPacketsPerRound
  packetsTable := ∅
  sendPacketsCache := .empty
  metaStorage := [(0, emptyMeta [] [])]
  currentRound := 0

/-! ## Rounds -/

variable (c : ConveyerBase)

def getMeta (round : Sequence) : Option RoundMeta := MetaStorage.get c.metaStorage round

def modifyMeta (round : Sequence) (f : RoundMeta → RoundMeta) : ConveyerBase :=
  { c with metaStorage := MetaStorage.modify c.metaStorage round f }

def setCharacteristic (mask : Bytes) (round : Sequence) : ConveyerBase :=
  match c.getMeta round with
  | none => c
  | some _ => c.modifyMeta round fun element => { element with mask }

def extractMeta (round : Sequence) : ConveyerBase :=
  { c with metaStorage := c.metaStorage.eraseP fun element => element.1 = round }

def appendMeta (round : Sequence) (element : RoundMeta) : ConveyerBase :=
  if (c.getMeta round).isSome then c
  else
    { c with
      metaStorage := (c.metaStorage ++ [(round, element)]).drop
        (c.metaStorage.length + 1 - metaCapacity) }

def changeRound (round : Sequence) : ConveyerBase := { c with currentRound := round }

def setTable (table : RoundTable) : ConveyerBase :=
  if table.round < c.currentRound then c
  else
    let neededHashes := table.hashes.filter fun hash => (c.packetsTable.lookup hash).isNone
    (c.changeRound table.round).appendMeta table.round (emptyMeta table.hashes neededHashes)

/-- The loop of `updateRoundTable`, for at most `fuel` steps: with the round zero it does not
end. -/
def extractFrom (round : Sequence) : Nat → Sequence → ConveyerBase → Option ConveyerBase
  | 0, _, _ => none
  | fuel + 1, cachedRound, c =>
    if round ≤ cachedRound then extractFrom round fuel (cachedRound - 1) (c.extractMeta cachedRound)
    else some c

def updateRoundTable (cachedRound : Sequence) (table : RoundTable) : Option ConveyerBase :=
  (extractFrom table.round (cachedRound.toNat + 2) cachedRound c).map fun c =>
    (c.changeRound table.round).setTable table

/-! ## Packets -/

def addTransaction (transaction : Transaction) : ConveyerBase :=
  if !transaction.isValid then c else { c with packetQueue := (c.packetQueue.push transaction).1 }

def addSeparatePacket (packet : TransactionsPacket) : ConveyerBase :=
  if (c.packetsTable.lookup packet.hash).isNone then
    { c with packetQueue := c.packetQueue.pushPacket packet }
  else c

/-- `emplace` keeps an entry that is there. -/
def emplacePacket (table : TransactionsPacketTable) (packet : TransactionsPacket) :
    TransactionsPacketTable :=
  if (table.lookup packet.hash).isSome then table else table.insert packet.hash packet

def addFoundPacket (round : Sequence) (packet : TransactionsPacket) : ConveyerBase :=
  match c.getMeta round with
  | none => c
  | some element =>
    if element.neededHashes.contains packet.hash then
      let c := c.modifyMeta round fun element =>
        { element with neededHashes := element.neededHashes.erase packet.hash }
      if round = c.currentRound then { c with packetsTable := emplacePacket c.packetsTable packet }
      else
        c.modifyMeta round fun element =>
          { element with hashTable := emplacePacket element.hashTable packet }
    else c

def isSyncCompleted (round : Sequence) : Bool :=
  match c.getMeta round with
  | none => true
  | some element => element.neededHashes.isEmpty

/-- The conveyer as `createPacket` and `applyCharacteristic` see it. -/
def toConveyer : Conveyer where
  packetsTable := c.packetsTable
  metaStorage := c.metaStorage.map fun element => (element.1, element.2.toConveyerMeta)

def createPacket (c : ConveyerBase) (round : Sequence) :
    Option (TransactionsPacket × List TransactionsPacket) :=
  c.toConveyer.createPacket round

/-! ## Sending -/

def isHashAtSendCache (hash : Option Hash) : Bool :=
  c.sendPacketsCache.entries.any fun pair => pair.2.hash = hash

def isPacketAtCache (packet : TransactionsPacket) : Bool :=
  (c.packetsTable.lookup packet.hash).isSome ||
    c.metaStorage.any fun element => (element.2.hashTable.lookup packet.hash).isSome

def addTransactionsPacket (packet : TransactionsPacket) : ConveyerBase :=
  if c.isPacketAtCache packet then c
  else { c with packetsTable := c.packetsTable.insert packet.hash packet }

def addPacketToMeta (round : Sequence) (packet : TransactionsPacket) : ConveyerBase :=
  let c := if c.isHashAtSendCache packet.hash then c
    else { c with sendPacketsCache := c.sendPacketsCache.emplace round ⟨packet.hash, 0⟩ }
  c.addTransactionsPacket packet

def removeHashFromSendCache (hash : Option Hash) : ConveyerBase :=
  { c with sendPacketsCache := c.sendPacketsCache.eraseFirst fun pair => pair.2.hash = hash }

variable (env : ConveyerEnv)

def due (c : ConveyerBase) : List (Sequence × SendCacheData) :=
  if c.currentRound < env.sendCacheValue then []
  else c.sendPacketsCache.upTo (c.currentRound - env.sendCacheValue)

/-- The packet of the entry may be sent once more. -/
def mayResend (pair : Sequence × SendCacheData) : Bool :=
  pair.2.count < env.maxResends || env.maxResends = 0

def hashesToSend (c : ConveyerBase) : List SendCacheData :=
  ((c.due env).filter (mayResend env)).map Prod.snd

def hashesToRemove (c : ConveyerBase) : List (Option Hash) :=
  ((c.due env).filter fun pair => !mayResend env pair).map fun pair => pair.2.hash

def sendLoop (crypto : Crypto) : List SendCacheData → TransactionsPacketTable →
    TransactionsPacketTable × List (Option Hash × TransactionsPacket) × List (Option Hash)
  | [], table => (table, [], [])
  | element :: rest, table =>
    match table.lookup element.hash with
    | some packet =>
      let packet := (packet.makeHash crypto).1
      let (table, flushed, notFound) := sendLoop crypto rest (table.replace element.hash packet)
      (table, (element.hash, packet) :: flushed, notFound)
    | none =>
      let (table, flushed, notFound) := sendLoop crypto rest table
      (table, flushed, element.hash :: notFound)

def checkSendCache (c : ConveyerBase) : ConveyerBase × List (Option Hash × TransactionsPacket) :=
  let toSend := c.hashesToSend env
  let toRemove := c.hashesToRemove env
  if toSend.isEmpty && toRemove.isEmpty then (c, [])
  else
    let packetsTable := toRemove.foldl (fun table hash => table.erase hash) c.packetsTable
    let (packetsTable, flushed, notFound) := sendLoop env.crypto toSend packetsTable
    let kept := c.sendPacketsCache.eraseUpTo (c.currentRound - env.sendCacheValue)
    let again := (toSend.filter fun element => !notFound.contains element.hash).map fun element =>
      { element with count := element.count + 1 }
    ({ c with
        packetsTable
        sendPacketsCache := again.foldl
          (fun cache data => cache.emplace c.currentRound data) kept },
      flushed)

def flushLoop (env : ConveyerEnv) (round : Sequence) : List TransactionsPacket → ConveyerBase →
    ConveyerBase × List TransactionsPacket
  | [], c => (c, [])
  | packet :: packets, c =>
    if packet.transactions.length ≠ 0 then
      let packet := (packet.makeHash env.crypto).1
      let (packet, isSigned) :=
        if packet.signatures.isEmpty then packet.sign env.privateKey else (packet, true)
      if !isSigned then (c, [])
      else
        let (c, flushed) := flushLoop env round packets (c.addPacketToMeta round packet)
        (c, packet :: flushed)
    else flushLoop env round packets c

/-- `flushTransactions` before the check of the send cache. -/
def flushQueue (c : ConveyerBase) : ConveyerBase :=
  let (packets, packetQueue) := c.packetQueue.pop c.currentRound
  (flushLoop env c.currentRound packets { c with packetQueue }).1

def flushTransactions (c : ConveyerBase) : ConveyerBase :=
  ((c.flushQueue env).checkSendCache env).1

/-! ## Blocks -/

/-- The conveyer with what `applyCharacteristic` has written. -/
def withConveyer (d : Conveyer) : ConveyerBase :=
  { c with
    packetsTable := d.packetsTable
    metaStorage := List.zipWith
      (fun element written => (element.1, { element.2 with toConveyerMeta := written.2 }))
      c.metaStorage d.metaStorage }

/-- `applyCharacteristic`. The hashes that it removes from the table of packets, whether there is a
block or not, it removes from the send cache as well. -/
def applyCharacteristic (uninitialised : Sequence) (c : ConveyerBase)
    (metaPoolInfo : PoolMetaInfo) :
    Except Fault (Option Pool × ConveyerBase) := do
  let applied ← c.toConveyer.applyCharacteristic uninitialised metaPoolInfo
  let hashes := ((c.getMeta metaPoolInfo.sequenceNumber).map fun element => element.hashes).getD []
  return (applied.pool, hashes.foldl removeHashFromSendCache (c.withConveyer applied.conveyer))

/-! ## Runs -/

/-- The calls on a conveyer. -/
inductive Operation where
  | addTransaction (transaction : Transaction)
  | addSeparatePacket (packet : TransactionsPacket)
  | addTransactionsPacket (packet : TransactionsPacket)
  | setCharacteristic (mask : Bytes) (round : Sequence)
  | changeRound (round : Sequence)
  | setTable (table : RoundTable)
  | updateRoundTable (cachedRound : Sequence) (table : RoundTable)
  | addFoundPacket (round : Sequence) (packet : TransactionsPacket)
  | addPacketToMeta (round : Sequence) (packet : TransactionsPacket)
  | flushTransactions
  | checkSendCache
  | applyCharacteristic (metaPoolInfo : PoolMetaInfo)

/-- One operation; nothing if it does not return. -/
def step (uninitialised : Sequence) (op : Operation) (c : ConveyerBase) : Option ConveyerBase :=
  match op with
  | .addTransaction transaction => some (c.addTransaction transaction)
  | .addSeparatePacket packet => some (c.addSeparatePacket packet)
  | .addTransactionsPacket packet => some (c.addTransactionsPacket packet)
  | .setCharacteristic mask round => some (c.setCharacteristic mask round)
  | .changeRound round => some (c.changeRound round)
  | .setTable table => some (c.setTable table)
  | .updateRoundTable cachedRound table => c.updateRoundTable cachedRound table
  | .addFoundPacket round packet => some (c.addFoundPacket round packet)
  | .addPacketToMeta round packet => some (c.addPacketToMeta round packet)
  | .flushTransactions => some (c.flushTransactions env)
  | .checkSendCache => some (c.checkSendCache env).1
  | .applyCharacteristic metaPoolInfo =>
    match c.applyCharacteristic uninitialised metaPoolInfo with
    | .ok result => some result.2
    | .error _ => none

/-- The calls that the cache of sent packets sees; the tables may change in any way. -/
inductive SendOperation where
  | addPacketToMeta (round : Sequence) (packet : TransactionsPacket)
  | checkSendCache
  | removeHashFromSendCache (hash : Option Hash)
  | changeRound (round : Sequence)
  | changeTables (packetsTable : TransactionsPacketTable)
      (metaStorage : List (Sequence × RoundMeta))

/-- An entry is made, or its packet is sent again. -/
inductive SendEvent where
  | created (hash : Option Hash)
  | resent (hash : Option Hash)

def sendStep (op : SendOperation) (c : ConveyerBase) : Option (List SendEvent × ConveyerBase) :=
  match op with
  | .addPacketToMeta round packet =>
    some (if c.isHashAtSendCache packet.hash then [] else [.created packet.hash],
      c.addPacketToMeta round packet)
  | .checkSendCache =>
    let result := c.checkSendCache env
    some (result.2.map fun flushed => .resent flushed.1, result.1)
  | .removeHashFromSendCache hash => some ([], c.removeHashFromSendCache hash)
  | .changeRound round => some ([], c.changeRound round)
  | .changeTables packetsTable metaStorage => some ([], { c with packetsTable, metaStorage })

/-- How often the packet has been sent again since its entry was last made. -/
def resends (hash : Option Hash) (events : List SendEvent) : Nat :=
  events.foldl (fun n event => match event with
    | .created hash' => if hash' = hash then 0 else n
    | .resent hash' => if hash' = hash then n + 1 else n) 0

end ConveyerBase

end CreditsNode
